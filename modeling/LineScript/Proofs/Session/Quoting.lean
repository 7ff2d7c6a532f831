import LineScript.Proofs.Machine.Tally
import LineScript.Proofs.Session.Replay
import LineScript.Proofs.Spelling

/-! # Quoted text in a session

Every variable of a reachable session is named by a name, and a quoted text is none. So a quoted
operand always stands for the text in its quotes, and a variable that was assigned a quoted text is
printed as that text, equals a quoted text exactly if the two are the same, and selects the arms
with that label.
-/

namespace LineScript

open Text

theorem Statement.isName_of_read {t name value : Text} (h : read t = .ok (.assign name value)) :
    isName name = true := by
  unfold read at h
  split at h
  · next ha =>
    cases h
    obtain ⟨-, -, hn, -⟩ := Spelling.assignment?_eq_some_iff.mp ha
    exact hn
  · split at h
    · cases ledBy_of_readAfter h
    · cases h

namespace Variables

def Named (vars : Variables) : Prop := ∀ name v, vars.get? name = some v → isName name = true

variable {vars : Variables}

theorem Named.empty : Named {} := by
  intro name v h
  cases h

theorem Named.resolve_inQuotes (h : vars.Named) (u : Text) :
    vars.resolve (inQuotes u) = .string u := by
  unfold resolve
  rw [trim_eq_self (trimmed_inQuotes u)]
  cases hv : vars.get? (inQuotes u) with
  | none => exact Value.read_inQuotes u
  | some v => exact absurd List.mem_cons_self (notMem_of_isName (h _ v hv) (by decide))

theorem resolve_of_isName {n : Text} {v : Value} (hn : isName n = true)
    (hv : vars.get? n = some v) : vars.resolve n = v := by
  unfold resolve
  rw [trim_eq_self (trimmed_of_isName hn), hv]
  rfl

end Variables

theorem Value.satisfies_equal (t u : Text) :
    (Value.string t).satisfies .equal (.string u) = decide (t = u) := by
  change (compare t u).isEq = decide (t = u)
  rw [Bool.eq_iff_iff, decide_eq_true_iff, Ordering.isEq_iff_eq_eq, Std.compare_eq_iff_eq]

theorem Condition.holds_equal {vars : Variables} (h : vars.Named) {n t : Text}
    (hn : isName n = true) (hv : vars.get? n = some (.string t)) (u : Text) :
    (Condition.compare n .equal (inQuotes u)).holds vars = decide (t = u) := by
  change (vars.resolve n).satisfies .equal (vars.resolve (inQuotes u)) = decide (t = u)
  rw [Variables.resolve_of_isName hn hv, h.resolve_inQuotes, Value.satisfies_equal]

/-! ### Names of variables -/

theorem Replay.named_foldl {r : Replay} (h : r.vars.Named) (es : List Event) :
    (es.foldl step r).vars.Named :=
  vars_foldl_of_forall (P := fun name _ => isName name = true) h
    fun _ _ _ _ hread => Statement.isName_of_read hread

theorem Machine.Accounted.named {s : Session} {m : Machine} (h : m.Accounted s)
    (hs : s.vars.Named) : m.vars.Named := by
  rw [← h.vars]
  exact Replay.named_foldl hs _

theorem Session.Reachable.named {s : Session} (h : Reachable s) : s.vars.Named := by
  induction h with
  | new => exact .empty
  | run _ g source ih => exact (accounted_run g _ source).named ih
  | reset => exact .empty
  | interrupt _ ih => exact ih

/-! ### Blocks at a point -/

/--
The command `c`, followed by `rest`, is next in the frame, and the limits let it enter a block.
-/
structure Frame.Ready (g : Guard) (m : Machine) (f : Frame) (c : Command) (rest : Program) :
    Prop where
  segment : f.segment = c :: rest
  calm : m.interrupted = false
  steps : m.steps < g.maxSteps
  nesting : m.nesting < g.maxNesting

namespace Progress

/-- Inside a part of the block that the next command opens, with `i` commands before its closer. -/
def inside (f : Frame) (fs : List Frame) (i start stop : Nat) (m : Machine) : Progress :=
  .running ⟨m.enterBlock, ⟨f.program, f.index + 1 + start, f.index + 1 + stop, .block⟩ ::
    f.advance (i + 2) :: fs⟩

def past (f : Frame) (fs : List Frame) (i : Nat) (m : Machine) : Progress :=
  .running ⟨m, f.advance (i + 2) :: fs⟩

end Progress

namespace Frame.Ready

open Progress

variable {g : Guard} {m m' : Machine} {f : Frame} {fs : List Frame} {c : Command} {rest : Program}
  {i : Nat}

theorem next_of_enter (h : f.Ready g m c rest) {start stop : Nat} (hn : m'.nesting = m.nesting)
    (ha : Action.ofStatement g c rest (m.counted.announced g c.line) =
      .enter start stop (i + 1) m') :
    Point.next g ⟨m, f :: fs⟩ = inside f fs i start stop m' := by
  have hlt : ¬ g.maxNesting ≤ m'.nesting := by
    rw [hn]
    exact Nat.not_le.mpr h.nesting
  rw [Point.next_of_segment_eq_cons h.segment,
    Action.ofCommand_of_started c rest h.calm h.steps, ha]
  exact if_neg hlt

theorem next_of_pass (h : f.Ready g m c rest)
    (ha : Action.ofStatement g c rest (m.counted.announced g c.line) = .pass (i + 1) m') :
    Point.next g ⟨m, f :: fs⟩ = past f fs i m' := by
  rw [Point.next_of_segment_eq_cons h.segment,
    Action.ofCommand_of_started c rest h.calm h.steps, ha]
  rfl

theorem next_of_compare (h : f.Ready g m c rest) {lhs rhs : Text} {op : Operator}
    (hs : c.statement = .ifThen (.compare lhs op rhs))
    (hi : rest.closer? .conditional = some i) {taken : Bool}
    (ht : (Condition.compare lhs op rhs).holds m.vars = taken) (fs : List Frame) :
    Point.next g ⟨m, f :: fs⟩ =
      (match taken, Program.otherwise? (rest.take i) with
        | true, o => inside f fs i 0 (o.getD i)
        | false, some o => inside f fs i (o + 1) i
        | false, none => past f fs i)
      ((m.counted.announced g c.line).report (.branched taken)) := by
  have ha : Action.ofStatement g c rest (m.counted.announced g c.line) =
      Action.branching (.compare lhs op rhs) (rest.take i) i (m.counted.announced g c.line) := by
    rw [Action.ofStatement, hs]
    dsimp only
    rw [Action.ofBranch, hi]
  have hh : (Condition.compare lhs op rhs).holds (m.counted.announced g c.line).vars = taken := ht
  unfold Action.branching at ha
  rw [hh] at ha
  cases taken with
  | true =>
    cases ho : Program.otherwise? (rest.take i) with
    | none =>
      rw [ho] at ha
      exact h.next_of_enter rfl ha
    | some o =>
      rw [ho] at ha
      exact h.next_of_enter rfl ha
  | false =>
    cases ho : Program.otherwise? (rest.take i) with
    | none =>
      rw [ho] at ha
      exact h.next_of_pass ha
    | some o =>
      rw [ho] at ha
      exact h.next_of_enter rfl ha

theorem next_of_caseOf (h : f.Ready g m c rest) {n : Text} (hs : c.statement = .caseOf n)
    (hi : rest.closer? .selection = some i) (fs : List Frame) :
    Point.next g ⟨m, f :: fs⟩ =
      match Arm.choose? (Program.arms (rest.take i)) (m.vars.fetch n).text with
      | some a => inside f fs i a.start a.stop
          ((m.counted.announced g c.line).report (.selected a.label))
      | none => past f fs i (m.counted.announced g c.line) := by
  have ha : Action.ofStatement g c rest (m.counted.announced g c.line) =
      Action.selecting n (rest.take i) i (m.counted.announced g c.line) := by
    rw [Action.ofStatement, hs]
    dsimp only
    rw [Action.ofSelection, hi]
  have hv : (m.counted.announced g c.line).vars = m.vars := rfl
  unfold Action.selecting at ha
  rw [hv] at ha
  cases hc : Arm.choose? (Program.arms (rest.take i)) (m.vars.fetch n).text with
  | none =>
    rw [hc] at ha
    exact h.next_of_pass ha
  | some a =>
    rw [hc] at ha
    exact h.next_of_enter rfl ha

end Frame.Ready

/-! ### Arms -/

/-- Among arms of which one has the label `u`, such an arm is chosen exactly by the text `u`. -/
theorem Arm.choose?_label_iff {arms : List Arm} {t u : Text} (h : ∃ a ∈ arms, a.label = some u) :
    (∃ a, choose? arms t = some a ∧ a.label = some u) ↔ t = u := by
  constructor
  · rintro ⟨a, ha, hu⟩
    rcases Option.or_eq_some_iff.mp ha with hf | ⟨-, hf⟩
    · have ht : a.label = some t := by simpa using List.find?_some hf
      exact Option.some.inj (ht.symm.trans hu)
    · have hn : a.label = none := by simpa using List.find?_some hf
      cases hn.symm.trans hu
  · rintro rfl
    obtain ⟨a, ha, hl⟩ := h
    have hs : (arms.find? (·.label == some t)).isSome = true :=
      List.find?_isSome.mpr ⟨a, ha, by simp [hl]⟩
    obtain ⟨b, hb⟩ := Option.isSome_iff_exists.mp hs
    exact ⟨b, by simp [choose?, hb], by simpa using List.find?_some hb⟩

theorem Program.label_of_mem_arms {p : Program} (hr : p.IsRead) {a : Arm} (ha : a ∈ p.arms)
    {d : Command} (hd : p[a.start - 1]? = some d) {u : Text} (hu : d.line.text = Spelling.when u) :
    a.label = some u := by
  obtain ⟨j, hj, hstart, -⟩ := Arm.exists_of_mem_ofMarkers (pairwise_markers p) ha
  obtain ⟨⟨k, st⟩, hm, hl⟩ := List.mem_filterMap.mp hj
  obtain ⟨label, hlabel, hx⟩ := Option.map_eq_some_iff.mp hl
  cases hx
  obtain ⟨p₁, c, p₂, rfl, hc, -⟩ := exists_of_mem_topLevelFrom hm
  obtain ⟨rfl, rfl⟩ := Prod.mk.inj hc
  have hdc : d = c := by simpa [hstart] using hd.symm
  have hread := hr c (by simp)
  rw [← hdc, hu, Spelling.read_when] at hread
  rw [← hdc, ← Except.ok.inj hread] at hlabel
  exact (Option.some.inj hlabel).symm

/-! ### Runs of one line -/

namespace Session

variable {g : Guard} {s : Session} {source : Text}

theorem run_of_line {l : Line} {st : Statement} {m : Machine} (hl : Line.split source = [l])
    (hr : Statement.read l.text = .ok st) (hg : 0 < g.maxSteps) (hi : g.alarm ≠ some 0)
    (ha : Action.ofStatement g ⟨l, st⟩ [] ((s.machine g source).counted.announced g l) =
      .pass 0 m) :
    run g s source = ⟨.ok m.output.shown, m.report (.finished m.steps)⟩ := by
  have hp : Program.ofText source = .ok [⟨l, st⟩] := by
    rw [Program.ofText, hl]
    exact Program.ofLines_eq_ok_iff.mpr ⟨rfl, by simpa [Program.IsRead] using hr⟩
  have hc : Action.ofCommand g ⟨l, st⟩ [] (s.machine g source) = .pass 0 m := by
    have hm : (s.machine g source).interrupted = false := Machine.interrupted_ofSession hi s
    rw [Action.ofCommand_of_started _ _ hm hg, ha]
  rw [run_of_ofText_eq_ok hp, Exec.run, Exec.runFrom_cons, hc]
  rfl

variable {n t u : Text}

theorem run_assign (hn : isName n = true) (ht : '\n' ∉ t) (hg : 0 < g.maxSteps)
    (hi : g.alarm ≠ some 0) :
    (run g s (Spelling.assign n t)).result = .ok Output.nothing ∧
      (run g s (Spelling.assign n t)).session.vars = s.vars.store n (.string t) := by
  rw [run_of_line (Spelling.split_assign hn ht) (Spelling.read_assign hn t) hg hi rfl]
  refine ⟨rfl, ?_⟩
  change s.vars.store n (.read (inQuotes t)) = _
  rw [Value.read_inQuotes]

theorem run_print (hn : isName n = true) (hv : s.vars.get? n = some (.string t))
    (hg : 0 < g.maxSteps) (hi : g.alarm ≠ some 0) :
    (run g s (Spelling.print n)).result =
      .ok (if t = [] then Output.nothing else t ++ ['\n']) := by
  rw [run_of_line (Spelling.split_print hn) (Spelling.read_print hn) hg hi rfl]
  change Except.ok (Output.shown (Output.print {} (s.vars.resolve n).text)) = _
  rw [Variables.resolve_of_isName hn hv]
  by_cases ht : t = []
  · simp [Output.print, Output.shown, Value.text, ht]
  · simp [Output.print, Output.append, Output.shown, Output.emitted, Value.text, ht]

/--
Quoting agrees across the readers. After the line `n = "t"`, unless an interrupt comes before it,
the variable `n` is the string `t`, and `PRINT(n)` shows it. Wherever in a run `n` is that string,
`IF n = "u" THEN` enters the part before its `ELSE` if `t` and `u` are the same; if they are not,
it enters the part after it, or goes past the block where there is none. `REVELATION_CASE n` enters
the arm that `t` chooses, and an arm under `WHEN "u" THEN` is chosen exactly if `t` and `u` are the
same. Nothing else is asked of the texts, nor of the variables: a quoted operand always stands for
the text in its quotes.
-/
theorem quoting_agrees (hn : isName n = true) (ht : '\n' ∉ t) (hu : '"' ∉ u)
    (hg : 0 < g.maxSteps) (hi : g.alarm ≠ some 0) (s : Session) :
    let r := run g s (Spelling.assign n t)
    r.result = .ok Output.nothing ∧ r.session.vars.get? n = some (.string t) ∧
    (run g r.session (Spelling.print n)).result =
      .ok (if t = [] then Output.nothing else t ++ ['\n']) ∧
    ∀ g' s' source p m f fs c rest, Reachable s' → Program.ofText source = .ok p →
      Exec.Reaches g' p (s'.machine g' source) ⟨m, f :: fs⟩ →
      m.vars.get? n = some (.string t) → f.Ready g' m c rest →
      m.vars.resolve (inQuotes u) = .string u ∧
      (c.line.text = Spelling.ifEqual n u → ∀ i, rest.closer? .conditional = some i →
        Point.next g' ⟨m, f :: fs⟩ =
          (match decide (t = u), Program.otherwise? (rest.take i) with
            | true, o => Progress.inside f fs i 0 (o.getD i)
            | false, some o => Progress.inside f fs i (o + 1) i
            | false, none => Progress.past f fs i)
          ((m.counted.announced g' c.line).report (.branched (decide (t = u))))) ∧
      (c.line.text = Spelling.caseOf n → ∀ i, rest.closer? .selection = some i →
        (Point.next g' ⟨m, f :: fs⟩ =
          match Arm.choose? (Program.arms (rest.take i)) t with
          | some a => Progress.inside f fs i a.start a.stop
              ((m.counted.announced g' c.line).report (.selected a.label))
          | none => Progress.past f fs i (m.counted.announced g' c.line)) ∧
        ∀ a ∈ Program.arms (rest.take i), ∀ d, (rest.take i)[a.start - 1]? = some d →
          d.line.text = Spelling.when u →
          a.label = some u ∧
          ((∃ a', Arm.choose? (Program.arms (rest.take i)) t = some a' ∧ a'.label = some u) ↔
            t = u)) := by
  intro r
  obtain ⟨hok, hvars⟩ := run_assign (s := s) hn ht hg hi
  have hget : r.session.vars.get? n = some (.string t) := by
    rw [hvars]
    simp [Variables.store]
  refine ⟨hok, hget, run_print hn hget hg hi, ?_⟩
  intro g' s' source p m f fs c rest hs hp hpt hv hready
  obtain ⟨hm, hf⟩ := hpt.preserved (Point.preserved_accounted g' s') (accounted_machine s' source)
    (Program.isRead_of_ofLines hp)
  have hnamed : m.vars.Named := hm.named hs.named
  have hread : Program.IsRead (c :: rest) :=
    (hf f List.mem_cons_self).mono fun d hd => Frame.mem_program_of_segment hready.segment hd
  have hc := hread c List.mem_cons_self
  refine ⟨hnamed.resolve_inQuotes u, fun htext i hi => ?_, fun htext i hi => ⟨?_, ?_⟩⟩
  · rw [htext, Spelling.read_ifEqual hn hu] at hc
    have holds := Condition.holds_equal hnamed hn hv u
    exact hready.next_of_compare (Except.ok.inj hc).symm hi holds fs
  · rw [htext, Spelling.read_caseOf hn] at hc
    have hfetch : (m.vars.fetch n).text = t := by
      rw [Variables.fetch, hv]
      rfl
    rw [hready.next_of_caseOf (Except.ok.inj hc).symm hi fs, hfetch]
  · intro a ha d hd hw
    have hbody : Program.IsRead (rest.take i) :=
      hread.mono fun d hd => List.mem_cons_of_mem c (List.mem_of_mem_take hd)
    have hlabel := Program.label_of_mem_arms hbody ha hd hw
    exact ⟨hlabel, Arm.choose?_label_iff ⟨a, ha, hlabel⟩⟩

/-- The text holds a keyword, an operator and the name of the variable, and ends in a blank. -/
theorem quoting_agrees_on_operators :
    ∃ (t source : Text) (s : Session) (p : Program) (m : Machine),
      t = " THEN >= (X) ".toList ∧ source = Spelling.ifEqual ['X'] t ++ "\nPRINT(X)\nENDIF".toList ∧
      s = (run {} {} (Spelling.assign ['X'] t)).session ∧ s.vars.get? ['X'] = some (.string t) ∧
      (run {} s (Spelling.print ['X'])).result = .ok (t ++ ['\n']) ∧
      Program.ofText source = .ok p ∧
      Point.next {} (.start p (s.machine {} source)) =
        Progress.inside ⟨p, 0, p.length, .whole⟩ [] 1 0 1 m := by
  obtain ⟨t, ht⟩ : ∃ t, t = " THEN >= (X) ".toList := ⟨_, rfl⟩
  obtain ⟨source, hsource⟩ : ∃ source,
      source = Spelling.ifEqual ['X'] t ++ "\nPRINT(X)\nENDIF".toList := ⟨_, rfl⟩
  have hp : Program.ofText source = .ok [
      ⟨⟨1, Spelling.ifEqual ['X'] t⟩, .ifThen (.compare ['X'] .equal (inQuotes t))⟩,
      ⟨⟨2, "PRINT(X)".toList⟩, .print (.token ['X'])⟩,
      ⟨⟨3, "ENDIF".toList⟩, .close .conditional⟩] := by
    rw [hsource, ht]
    decide +kernel
  obtain ⟨-, hget, hprint, hpoint⟩ := quoting_agrees (n := ['X']) (t := t) (u := t) (g := {})
    (by decide) (by rw [ht]; decide) (by rw [ht]; decide) (by decide) (by decide) {}
  rw [if_neg (by rw [ht]; decide)] at hprint
  have hsteps : 0 < ({} : Guard).maxSteps := by decide
  have hnesting : 0 < ({} : Guard).maxNesting := by decide
  have hif := (hpoint {} _ source _ _ _ [] _ _ (.run .new {} _) hp (.refl _) hget
    ⟨Frame.segment_whole _ _, rfl, hsteps, hnesting⟩).2.1 rfl 1 (by decide)
  rw [decide_eq_true rfl] at hif
  exact ⟨t, source, _, _, _, ht, hsource, rfl, hget, hprint, hp, hif⟩

end Session

end LineScript
