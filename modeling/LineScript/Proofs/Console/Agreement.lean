import LineScript.Proofs.Console.Typing
import LineScript.Proofs.Console.Written
import LineScript.Proofs.Machine.Sequence

/-! # The dialogue agrees with the run of the whole source

Where the lines of a source are well bracketed, the programs that a dialogue releases as the lines
are typed are balanced pieces of the source. The run of the whole source is the run of one piece
after the other; and the run of a piece by itself, numbered from one and with a step count of its
own, tracks its part of the whole run.
-/

namespace LineScript

open Program Text

/-- The session has what the machine has, up to line numbers. -/
def Session.Mirrors (s : Session) (m : Machine) : Prop :=
  s.vars = m.vars ∧ Functions.texts s.functions = Functions.texts m.functions

/-- The program is what the physical lines read as, up to line numbers. -/
def Program.Renders (p : Program) (ts : List Text) : Prop :=
  p.IsRead ∧ p.lines.map Line.text = contents ts

namespace Program.Renders

variable {p q : Program} {ts us : List Text} {t : Text}

theorem eq_nil (h : p.Renders []) : p = [] := by
  cases p with
  | nil => rfl
  | cons c p => cases h.2

theorem append_blank (h : p.Renders ts) (ht : trim t = []) : p.Renders (ts ++ [t]) := by
  refine ⟨h.1, ?_⟩
  rw [contents_append_blank ht, h.2]

theorem of_blank (h : p.Renders (t :: ts)) (ht : trim t = []) : p.Renders ts := by
  refine ⟨h.1, ?_⟩
  rw [h.2, contents_cons_of_blank ht]

theorem exists_cons (h : p.Renders (t :: ts)) (ht : trim t ≠ []) :
    ∃ c, ∃ (q : Program), p = c :: q ∧ c.line.text = trim t ∧
      Statement.read (trim t) = .ok c.statement ∧ q.Renders ts := by
  obtain ⟨hr, hl⟩ := h
  rw [contents_cons ht] at hl
  cases p with
  | nil => cases hl
  | cons c q =>
    obtain ⟨hc, hq⟩ := List.cons_eq_cons.mp hl
    obtain ⟨hrc, hrq⟩ := List.forall_mem_cons.mp hr
    exact ⟨c, q, rfl, hc, hc ▸ hrc, hrq, hq⟩

theorem append_singleton (h : p.Renders ts) {c : Command} (hc : c.line.text = trim t)
    (ht : trim t ≠ []) (hs : Statement.read (trim t) = .ok c.statement) :
    Renders (p ++ [c]) (ts ++ [t]) := by
  constructor
  · intro d hd
    rcases List.mem_append.mp hd with hd | hd
    · exact h.1 d hd
    · rw [List.mem_singleton] at hd
      subst hd
      rw [hc]
      exact hs
  · have hl : lines (p ++ [c]) = p.lines ++ [c.line] := by simp [Program.lines]
    rw [hl, List.map_append, h.2, contents_append, contents_cons ht]
    simp [hc, contents]

theorem exists_ofText (h : p.Renders ts) (ht : ∀ t ∈ ts, '\n' ∉ t) :
    ∃ q, Program.ofText (joined ts) = .ok q ∧ Alike p q := by
  refine alike_of_texts ?_ h.1.ofLines_lines
  rw [h.2, Line.texts_split, lines_joined ht]

end Program.Renders

namespace Exec

variable {g : Guard}

theorem not_quiet_of_unrecognized {c : Command} {rest : Program} {m m' : Machine} {u : Unit}
    (hc : c.statement = .unrecognized) (h : run g (c :: rest) m = .ok u m') : ¬ m'.Quiet := by
  intro hq
  have ha : (∃ e m₁, Action.ofCommand g c rest m = .fail e m₁) ∨
      ∃ e, ∃ m₁ : Machine, Action.ofCommand g c rest m = .pass 0 (m₁.skip e) := by
    unfold Action.ofCommand
    split
    · exact .inl ⟨_, _, rfl⟩
    · split
      · exact .inl ⟨_, _, rfl⟩
      · unfold Action.ofStatement
        rw [hc]
        exact .inr ⟨_, _, rfl⟩
  rw [run, runFrom_cons] at h
  rcases ha with ⟨e, m₁, ha⟩ | ⟨e, m₁, ha⟩
  · rw [ha] at h
    cases h
  · rw [ha] at h
    have hr : run g rest (m₁.skip e) = .ok u m' := h
    exact (evolves_quiet g).of_run hr hq e List.mem_cons_self

end Exec

namespace Session

variable {g : Guard} {s : Session} {p : Program} {ts : List Text} {m m' : Machine} {u : Unit}

/-- A released program, run by itself, tracks its part of the run of the whole source. -/
theorem tracks_run_joined (hg : g.alarm = none) (hs : s.Mirrors m) (hd : m.depth = 0)
    (hn : m.nesting = 0) (hp : p.Renders ts) (ht : ∀ t ∈ ts, '\n' ∉ t)
    (h : Exec.run g p m = .ok u m') :
    ∃ m₁, run g s (joined ts) = report (.ok () m₁) ∧ m'.Tracks m.output.fragments m₁ := by
  obtain ⟨q, hq, ha⟩ := hp.exists_ofText ht
  have hm : m.Tracks m.output.fragments (s.machine g (joined ts)) :=
    { vars := hs.1, functions := hs.2, depth := hd.symm, nesting := hn.symm,
      steps := Nat.zero_le _, calm := Machine.interrupted_ofSession (by simp [hg]) s,
      output := fun _ => rfl }
  obtain ⟨m₁, hr, hm₁⟩ := Exec.tracks_run hg ha hm u m' h
  refine ⟨m₁, ?_, hm₁⟩
  rw [run_of_ofText_eq_ok hq, hr]

end Session

namespace Dialogue

/-- Typed from here, the lines are all run with success, and do what leads from `m` to `m'`. -/
structure Settles (g : Guard) (d : Dialogue) (ts : List Text) (m m' : Machine) : Prop where
  draft : (d.after g ts).draft = {}
  session : (d.after g ts).session.Mirrors m'
  succeeds : ∀ r ∈ d.reports g ts, r.result = .ok r.machine.output.shown
  output : m'.output.fragments = fragments (d.reports g ts) ++ m.output.fragments

namespace Settles

variable {g : Guard} {d d' : Dialogue} {t : Text} {ts : List Text} {m m₁ m' : Machine}

theorem cons_of_none (hd : (d.typed g t).1 = d') (hr : d.report? g t = none)
    (h : Settles g d' ts m m') : Settles g d (t :: ts) m m' := by
  have ha : d.after g (t :: ts) = d'.after g ts := by
    rw [← hd]
    rfl
  have hrs : d.reports g (t :: ts) = d'.reports g ts := by
    rw [reports, hr, hd]
    rfl
  exact ⟨ha ▸ h.draft, ha ▸ h.session, hrs ▸ h.succeeds, hrs ▸ h.output⟩

theorem cons_of_some {r : Report} (hd : (d.typed g t).1 = d') (hr : d.report? g t = some r)
    (hok : r.result = .ok r.machine.output.shown)
    (ho : m₁.output.fragments = r.machine.output.fragments ++ m.output.fragments)
    (h : Settles g d' ts m₁ m') : Settles g d (t :: ts) m m' := by
  have ha : d.after g (t :: ts) = d'.after g ts := by
    rw [← hd]
    rfl
  have hrs : d.reports g (t :: ts) = r :: d'.reports g ts := by
    rw [reports, hr, hd]
    rfl
  refine ⟨ha ▸ h.draft, ha ▸ h.session, ?_, ?_⟩
  · rw [hrs]
    exact List.forall_mem_cons.mpr ⟨hok, h.succeeds⟩
  · rw [hrs, fragments_cons, h.output, ho, List.append_assoc]

end Settles

/--
A draft holds the lines `held`, the lines `ts` are to come, and the run of the program `H ++ Q` that
all these lines read as leads from `m` to `m'`.
-/
structure Pending (g : Guard) (s : Session) (held ts : List Text) (H Q : Program)
    (m m' : Machine) : Prop where
  unbroken : ∀ t ∈ held ++ ts, '\n' ∉ t
  behind : H.Renders held
  ahead : Q.Renders ts
  bracketed : bracketed (Stack.through [] H) (contents ts) = true
  isOpen : held ≠ [] → Stack.through [] H ≠ []
  session : s.Mirrors m
  depth : m.depth = 0
  nesting : m.nesting = 0
  run : Exec.run g (H ++ Q) m = .ok () m'

namespace Pending

variable {g : Guard} {s : Session} {held ts : List Text} {t : Text} {H Q : Program}
  {m m' : Machine}

theorem eq_nil (h : Pending g s held [] H Q m m') : held = [] ∧ H = [] ∧ m' = m := by
  have hQ := h.ahead.eq_nil
  have hr := h.run
  rw [hQ, List.append_nil] at hr
  have hheld : held = [] := by
    by_contra hne
    exact h.isOpen hne (Exec.balanced_of_runFrom hr)
  have hH : H = [] := (hheld ▸ h.behind).eq_nil
  rw [hH] at hr
  cases hr
  exact ⟨hheld, hH, rfl⟩

theorem of_blank (h : Pending g s [] (t :: ts) H Q m m') (ht : trim t = []) :
    Pending g s [] ts H Q m m' :=
  { h with
    unbroken := (List.forall_mem_cons.mp h.unbroken).2
    ahead := h.ahead.of_blank ht
    bracketed := contents_cons_of_blank ht ts ▸ h.bracketed }

theorem hold_blank (h : Pending g s held (t :: ts) H Q m m') (ht : trim t = [])
    (hne : held ≠ []) : Pending g s (held ++ [t]) ts H Q m m' :=
  { h with
    unbroken := by simpa using h.unbroken
    behind := h.behind.append_blank ht
    ahead := h.ahead.of_blank ht
    bracketed := contents_cons_of_blank ht ts ▸ h.bracketed
    isOpen := fun _ => h.isOpen hne }

theorem unbroken_release (h : Pending g s held (t :: ts) H Q m m') :
    ∀ t' ∈ held ++ [t], '\n' ∉ t' := by
  intro t' ht'
  refine h.unbroken t' ?_
  rw [show held ++ t :: ts = (held ++ [t]) ++ ts by simp]
  exact List.mem_append_left ts ht'

section Command

variable {c : Command} (h : Pending g s held (t :: ts) H (c :: Q) m m')
  (ht : trim t ≠ []) (hs : Statement.read (trim t) = .ok c.statement) (hQ : Q.Renders ts)

include h hs ht

theorem length_through :
    (Stack.through [] (H ++ [c])).length =
      Draft.depthAfter (Stack.through [] H).length (Statement.edge? (trim t)) := by
  have hb := h.bracketed
  rw [contents_cons ht] at hb
  rw [Stack.through_append]
  exact (bracketed_cons hs hb).2

theorem bracketed_rest : Text.bracketed (Stack.through [] (H ++ [c])) (contents ts) = true := by
  have hb := h.bracketed
  rw [contents_cons ht] at hb
  rw [Stack.through_append]
  exact (bracketed_cons hs hb).1

include hQ

theorem hold (hc : c.line.text = trim t) (ho : Stack.through [] (H ++ [c]) ≠ []) :
    Pending g s (held ++ [t]) ts (H ++ [c]) Q m m' :=
  { h with
    unbroken := by simpa using h.unbroken
    behind := h.behind.append_singleton hc ht hs
    ahead := hQ
    bracketed := h.bracketed_rest ht hs
    isOpen := fun _ => ho
    run := by simpa using h.run }

theorem release (ho : Stack.through [] (H ++ [c]) = []) :
    ∃ m₁, Exec.run g (H ++ [c]) m = .ok () m₁ ∧
      ∀ s₁ : Session, s₁.Mirrors m₁ → Pending g s₁ [] ts [] Q m₁ m' := by
  have hr : Exec.run g ((H ++ [c]) ++ Q) m = .ok () m' := by simpa using h.run
  rw [Exec.run, Exec.runFrom_append ho] at hr
  cases hm : Exec.run g (H ++ [c]) m with
  | error e m₁ =>
    rw [show Exec.runFrom g _ 0 (H ++ [c]) m = .error e m₁ from hm] at hr
    cases hr
  | ok u m₁ =>
    rw [show Exec.runFrom g _ 0 (H ++ [c]) m = .ok u m₁ from hm] at hr
    obtain ⟨hd, hn⟩ := (Exec.evolves_counters g).of_run hm
    refine ⟨m₁, rfl, fun s₁ hs₁ => ?_⟩
    exact
      { unbroken := fun t' ht' => h.unbroken t' (by simpa using .inr (.inr ht'))
        behind := ⟨by simp [IsRead], rfl⟩
        ahead := hQ
        bracketed := ho ▸ h.bracketed_rest ht hs
        isOpen := fun hne => absurd rfl hne
        session := hs₁
        depth := hd.trans h.depth
        nesting := hn.trans h.nesting
        run := hr }

end Command

end Pending

theorem read_resetLine : Statement.read resetLine = .ok .unrecognized := by decide

/-- Lines that are typed while others are held settle what the run of all of them does. -/
theorem Pending.settles {g : Guard} (hg : g.alarm = none) {ts : List Text} {s : Session}
    {held : List Text} {H Q : Program} {m m' : Machine} (h : Pending g s held ts H Q m m')
    (hq : m'.Quiet) : Settles g ⟨s, ⟨joined held, (Stack.through [] H).length⟩⟩ ts m m' := by
  induction ts generalizing s held H Q m with
  | nil =>
    have hs := h.session
    obtain ⟨rfl, rfl, rfl⟩ := h.eq_nil
    exact ⟨rfl, hs, by simp [reports], rfl⟩
  | cons t ts ih =>
    by_cases hblank : trim t = []
    · by_cases hheld : held = []
      · subst hheld
        cases h.behind.eq_nil
        obtain ⟨hd, hr⟩ := typed_of_blank (g := g) (s := s) hblank
        exact .cons_of_none hd hr (ih (h.of_blank hblank))
      · have he : Statement.edge? (trim t) = none := by rw [hblank]; rfl
        have hne : Draft.depthAfter (Stack.through [] H).length (Statement.edge? (trim t)) ≠ 0 := by
          rw [he]
          simpa [Draft.depthAfter] using h.isOpen hheld
        obtain ⟨hd, hr⟩ := typed_of_held (g := g) (s := s) (.inl hheld)
          (fun hn => absurd hn hheld) hne
        rw [he] at hd
        exact .cons_of_none hd hr (ih (h.hold_blank hblank hheld))
    · obtain ⟨c, Q, rfl, hc, hs, hQ⟩ := h.ahead.exists_cons hblank
      have hlen := h.length_through hblank hs
      have hreset : held = [] → trim t ≠ resetLine := by
        rintro rfl he
        cases h.behind.eq_nil
        rw [he, read_resetLine] at hs
        have hst : c.statement = .unrecognized := by simpa using hs.symm
        exact Exec.not_quiet_of_unrecognized hst h.run hq
      by_cases ho : Stack.through [] (H ++ [c]) = []
      · obtain ⟨m₁, hm, hp⟩ := h.release hblank hs hQ ho
        obtain ⟨m₂, hrun, htr⟩ := Session.tracks_run_joined hg h.session h.depth h.nesting
          (h.behind.append_singleton hc hblank hs) h.unbroken_release hm
        obtain ⟨hd, hr⟩ := typed_of_released (g := g) (s := s) (.inr hblank) hreset
          (hlen.symm.trans (congrArg List.length ho))
        rw [hrun] at hd hr
        have hp' := hp m₂.toSession ⟨htr.vars, htr.functions⟩
        have hq₁ : m₁.Quiet := (Exec.evolves_quiet g).of_run hp'.run hq
        exact .cons_of_some hd hr rfl (htr.output hq₁) (ih hp')
      · obtain ⟨hd, hr⟩ := typed_of_held (g := g) (s := s) (.inr hblank) hreset
          (hlen ▸ fun hz => ho (List.length_eq_zero_iff.mp hz))
        rw [← hlen] at hd
        exact .cons_of_none hd hr (ih (h.hold hblank hs hQ hc ho))

theorem pending_of_run {g : Guard} {source out : Text}
    (hb : bracketed [] ((Line.split source).map Line.text) = true)
    (hok : (Session.run g {} source).result = .ok out) :
    ∃ p m, Program.ofText source = .ok p ∧
      Exec.run g p (Session.machine g {} source) = .ok () m ∧
      Session.run g {} source = Session.report (.ok () m) ∧
      Pending g {} [] (physicalLines source) [] p (Session.machine g {} source) m := by
  cases hp : Program.ofText source with
  | error e =>
    rw [Session.run_of_ofText_eq_error hp] at hok
    cases hok
  | ok p =>
    obtain ⟨m, hm, -⟩ := Session.exec_of_result_eq_ok hp hok
    obtain ⟨hl, hr⟩ := ofLines_eq_ok_iff.mp hp
    refine ⟨p, m, rfl, hm, by rw [Session.run_of_ofText_eq_ok hp, hm], ?_⟩
    exact
      { unbroken := fun t ht => newline_notMem_physicalLines ht
        behind := ⟨by simp [IsRead], rfl⟩
        ahead := ⟨hr, hl ▸ Line.texts_split_eq_contents source⟩
        bracketed := Line.texts_split_eq_contents source ▸ hb
        isOpen := fun hne => absurd rfl hne
        session := ⟨rfl, rfl⟩
        depth := rfl
        nesting := rfl
        run := hm }

/--
The dialogue agrees with the run of the whole source. Where each closing line closes the innermost
open block or stands where none is open, and the source runs to its end in a new session without a
diagnostic, its physical lines can be typed one by one: every program released is run with success,
no line is left in the draft, the variables are the same and so are the functions up to line
numbers, and what is written for the programs that emitted something is the output of the run.
-/
theorem typed_source_agrees (limits : Limits) {source out : Text}
    (hb : bracketed [] ((Line.split source).map Line.text) = true)
    (hok : (Session.run ⟨limits, none⟩ {} source).result = .ok out)
    (hq : ∀ e, .skipped e ∉ (Session.run ⟨limits, none⟩ {} source).events) :
    let g : Guard := ⟨limits, none⟩
    let whole := Session.run g {} source
    let typed := start g none ((physicalLines source).map .typed)
    let runs := reports g {} (physicalLines source)
    typed.result = .ok () ∧
    typed.writes = runs.map (fun r => written r.result) ∧
    (∀ r ∈ runs, ∃ shown, r.result = .ok shown) ∧
    typed.dialogue.draft = {} ∧
    typed.dialogue.session.vars = whole.session.vars ∧
    Functions.texts typed.dialogue.session.functions = Functions.texts whole.session.functions ∧
    (runs.filter Report.emits).flatMap (fun r => written r.result) =
      (if out = Output.nothing then [] else out) ∧
    (out = Output.nothing → ∀ r ∈ runs, r.emits = false) := by
  intro g whole typed runs
  obtain ⟨p, m, hp, hm, hwhole, hpend⟩ := pending_of_run hb hok
  have hquiet : m.Quiet := by
    intro e he
    refine hq e ?_
    rw [hwhole]
    exact List.mem_reverse.mpr (List.mem_cons_of_mem _ he)
  have hset : Settles g {} (physicalLines source) (Session.machine g {} source) m :=
    hpend.settles rfl hquiet
  obtain ⟨hd, hr, hw⟩ := start_typed g (physicalLines source)
  have hout : m.output.fragments = fragments runs := by
    have := hset.output
    rwa [show (Session.machine g {} source).output.fragments = [] from rfl, List.append_nil] at this
  have hlines : Output.WholeLines ⟨fragments runs⟩ :=
    hout ▸ (Exec.unbroken_of_run hp hm).output hquiet
  have hshown : out = Output.shown ⟨fragments runs⟩ := by
    rw [hwhole] at hok
    cases hok
    rw [← hout]
  have hnone := hlines.shown_eq_nothing_iff
  rw [← hshown] at hnone
  obtain ⟨hvars, hfunctions⟩ := hset.session
  rw [← hd] at hvars hfunctions
  refine ⟨hr, hw, fun r hr => ⟨_, hset.succeeds r hr⟩, hd ▸ hset.draft, ?_, ?_, ?_, ?_⟩
  · rw [show whole.session.vars = m.vars from congrArg (·.session.vars) hwhole]
    exact hvars
  · rw [show whole.session.functions = m.functions from congrArg (·.session.functions) hwhole]
    exact hfunctions
  · rw [flatMap_written hset.succeeds hlines]
    split
    · next hn =>
      have he : fragments runs = [] := hnone.mp hn
      change Output.emitted ⟨fragments runs⟩ = []
      rw [he]
      rfl
    · next hn =>
      have he : ¬ (fragments runs).isEmpty = true := fun h => hn (hnone.mpr (by simpa using h))
      rw [hshown, Output.shown, if_neg he]
  · intro hn r hr
    have he := List.flatMap_eq_nil_iff.mp (hnone.mp hn) r (List.mem_reverse.mpr hr)
    simp [Report.emits, he]

/-- A selection, a stray closer, a definition and a call, typed as five programs. -/
theorem typed_source_of_five_programs :
    ∃ source : Text,
      (start {} none ((physicalLines source).map .typed)).dialogue.draft = {} ∧
      (reports {} {} (physicalLines source)).length = 5 ∧
      ((reports {} {} (physicalLines source)).filter Report.emits).flatMap
        (fun r => written r.result) = "A\nF\n".toList := by
  obtain ⟨source, hs⟩ : ∃ source, source = ("X = A\r\nREVELATION_CASE X\n\n WHEN \"A\" THEN\n" ++
    "PRINT(X)\r\nENDCASE\nENDIF\nDEFINE F AS FUNCTION\nPRINT(\"F\")\nENDFUNCTION\nCALL F").toList :=
    ⟨_, rfl⟩
  have hb : bracketed [] ((Line.split source).map Line.text) = true := by
    rw [hs]
    decide +kernel
  have hok : (Session.run {} {} source).result = .ok "A\nF\n".toList := by
    rw [hs]
    decide +kernel
  have hq : ((Session.run {} {} source).events.all fun
      | .skipped _ => false
      | _ => true) = true := by
    rw [hs]
    decide +kernel
  have h := typed_source_agrees {} hb hok fun e he => by
    simpa using List.all_eq_true.mp hq _ he
  refine ⟨source, h.2.2.2.1, ?_, h.2.2.2.2.2.2.1⟩
  rw [hs]
  decide +kernel

end Dialogue

end LineScript
