import LineScript.Console.Outcome
import LineScript.Proofs.Console.Written
import LineScript.Proofs.Session.Citations
import LineScript.Proofs.Session.Replay

/-! # The fragments of an output

The events of a run tell which fragments it has emitted, one by one: the statements that printed
something, and the diagnostics. Whatever the session keeps holds no line end, so each fragment is
one line that is not empty, and the line ends of an output count its fragments.
-/

namespace LineScript

open Text

/-- What is emitted at one go: a text that is printed, or a diagnostic. -/
inductive Fragment where
  | printed (text : Text)
  | diagnostic (e : Error)
  deriving DecidableEq, Repr

namespace Fragment

def text : Fragment → Text
  | printed t => t
  | diagnostic e => '?' :: e.message

def isPrinted : Fragment → Bool
  | printed _ => true
  | diagnostic _ => false

def isDiagnostic : Fragment → Bool
  | printed _ => false
  | diagnostic _ => true

def line (f : Fragment) : Text := f.text ++ ['\n']

theorem countP_add_countP (fs : List Fragment) :
    fs.countP isPrinted + fs.countP isDiagnostic = fs.length := by
  have hd : isDiagnostic = fun f => decide ¬isPrinted f = true := by
    funext f
    cases f <;> rfl
  rw [hd, ← List.length_eq_countP_add_countP]

theorem count_newline_flatMap {fs : List Fragment} (h : ∀ f ∈ fs, f.text.Unbroken) :
    (fs.flatMap line).count '\n' = fs.length := by
  induction fs with
  | nil => rfl
  | cons f fs ih =>
    obtain ⟨hf, hfs⟩ := List.forall_mem_cons.mp h
    have hc : f.text.count '\n' = 0 := List.count_eq_zero.mpr hf
    simp only [List.flatMap_cons, List.count_append, line, hc, ih hfs, List.length_cons,
      List.count_singleton_self]
    omega

end Fragment

namespace Replay

def fragment? (r : Replay) : Event → Option Fragment
  | .executed l =>
    match Statement.read l.text with
    | .ok (.print e) => if e.shown r.vars = [] then none else some (.printed (e.shown r.vars))
    | _ => none
  | .skipped e => some (.diagnostic e)
  | _ => none

def fragments (r : Replay) : List Event → List Fragment
  | [] => []
  | e :: es => (r.fragment? e).toList ++ (r.step e).fragments es

theorem fragments_append_singleton (r : Replay) (es : List Event) (e : Event) :
    r.fragments (es ++ [e]) = r.fragments es ++ ((es.foldl step r).fragment? e).toList := by
  induction es generalizing r with
  | nil => simp [fragments]
  | cons e' es ih => simp [fragments, ih]

end Replay

/-- The fragments that a run has emitted, from the session on. -/
def Report.fragments (s : Session) (r : Report) : List Fragment :=
  (Replay.ofSession s).fragments r.events

namespace Machine

def fragments (s : Session) (m : Machine) : List Fragment :=
  (Replay.ofSession s).fragments m.events.reverse

/-- The output has the fragments that the events tell of, and no others. -/
def Itemized (s : Session) (m : Machine) : Prop :=
  m.output.fragments.reverse = (m.fragments s).map Fragment.line

variable {s : Session} {m : Machine}

theorem fragments_report (e : Event) :
    (m.report e).fragments s = m.fragments s ++ ((m.replay s).fragment? e).toList := by
  simp [fragments, report, Replay.fragments_append_singleton, replay, Replay.ofEvents]

theorem Itemized.report (h : m.Itemized s) {e : Event} (he : ∀ r, Replay.fragment? r e = none) :
    (m.report e).Itemized s := by
  unfold Itemized
  rw [fragments_report, he, Option.toList_none, List.append_nil]
  exact h

theorem Itemized.skip (h : m.Itemized s) (e : Error) : (m.skip e).Itemized s := by
  have hf : (m.skip e).fragments s = m.fragments s ++ [.diagnostic e] :=
    fragments_report (.skipped e)
  unfold Itemized at h ⊢
  rw [hf, List.map_append, ← h]
  exact List.reverse_cons

theorem Change.itemized {g : Guard} {c : Command} {rest : Program} {m' : Machine}
    (h : Change g c rest m m') (hm : m.Itemized s) (hp : ∀ e, c.statement ≠ .print e) :
    m'.Itemized s := by
  cases h with
  | none | assign => exact hm
  | print hs => exact absurd hs (hp _)
  | @decide condition =>
    cases condition with
    | compare lhs op rhs => exact hm.report fun _ => rfl
    | invalid text => exact (hm.report (e := .undecided text) fun _ => rfl).report fun _ => rfl
  | select | define | call => exact hm.report fun _ => rfl
  | undefined | unrecognized => exact hm.skip _

theorem Itemized.printed {m₁ : Machine} {l : Line} {e : Expression} (h : m.Itemized s)
    (hv : (m.replay s).vars = m.vars) (hr : Statement.read l.text = .ok (.print e))
    (hf : m₁.fragments s = m.fragments s ++ ((m.replay s).fragment? (.executed l)).toList)
    (ho : m₁.output = m.output) (hm : m₁.vars = m.vars) : (m₁.printed e).Itemized s := by
  change (m₁.output.print (e.shown m₁.vars)).fragments.reverse = (m₁.fragments s).map Fragment.line
  simp only [Replay.fragment?, hr, hv] at hf
  rw [hf, ho, hm, List.map_append, ← h]
  unfold Output.print
  by_cases he : e.shown m.vars = []
  · simp [he]
  · simp [he, Output.append, Fragment.line, Fragment.text]

end Machine

theorem Action.itemized_ofCommand {s : Session} {m : Machine} {c : Command} (hm : m.Itemized s)
    (ha : m.Accounted s) (hr : Statement.read c.line.text = .ok c.statement) (g : Guard)
    (rest : Program) : (ofCommand g c rest m).machine.Itemized s := by
  have hf : (m.counted.announced g c.line).fragments s =
      m.fragments s ++ ((m.replay s).fragment? (.executed c.line)).toList :=
    Machine.fragments_report (.executed c.line)
  unfold ofCommand
  split
  · exact hm
  · split
    · exact hm
    · by_cases hp : ∃ e, c.statement = .print e
      · obtain ⟨e, he⟩ := hp
        rw [ofStatement, he]
        exact hm.printed ha.vars (he ▸ hr) hf rfl rfl
      · push Not at hp
        refine change_ofStatement.itemized ?_ hp
        have hn : (m.replay s).fragment? (.executed c.line) = none := by
          simp only [Replay.fragment?, hr]
          split
          · next he => exact absurd (Except.ok.inj he) (hp _)
          · rfl
        unfold Machine.Itemized
        rw [hf, hn, Option.toList_none, List.append_nil]
        exact hm

theorem Point.preserved_itemized (g : Guard) (s : Session) :
    Preserved g (fun m => m.Accounted s ∧ m.Itemized s) (·.program.IsRead) where
  enter := fun scope _ h =>
    ⟨(preserved_accounted g s).enter scope h.1, by cases scope <;> exact h.2⟩
  leave := fun scope _ h =>
    ⟨(preserved_accounted g s).leave scope h.1, by cases scope <;> exact h.2⟩
  action := by
    intro f c rest m hs hm hf
    have hc := Frame.mem_program_of_segment hs List.mem_cons_self
    exact ⟨(preserved_accounted g s).action hs hm.1 hf,
      Action.itemized_ofCommand hm.2 hm.1 (hf c hc) g rest⟩
  advance := fun _ _ hf => hf
  block := fun _ _ _ hf => hf
  call := fun _ _ hp => Program.isRead_of_ofLines hp

/-- The output of a run has the fragments that its events tell of, however it ends. -/
theorem Session.itemized_run (g : Guard) (s : Session) (source : Text) :
    (run g s source).machine.Itemized s := by
  have hnew : (Machine.ofSession g s).Itemized s := rfl
  refine (machine_run_preserved (Point.preserved_itemized g s)
    ⟨accounted_machine s source, hnew.report fun _ => rfl⟩ ?_ ?_ ?_).2
  · exact fun p hp => Program.isRead_of_ofLines hp
  · exact fun m n hm => ⟨hm.1.report fun _ => rfl, hm.2.report fun _ => rfl⟩
  · exact fun m e hm => ⟨hm.1.report fun _ => rfl, hm.2.report fun _ => rfl⟩

section Unbroken

abbrev Line.Unbroken (l : Line) : Prop := l.text.Unbroken

theorem Error.unbroken_place {l : Line} (h : l.Unbroken) : (place l).Unbroken := by
  have hn : (Text.ofNat l.number).Unbroken := by
    intro hm
    have := Nat.isDigit_of_mem_toDigits (by decide) (by decide) hm
    exact absurd this (by decide)
  unfold place Text.Unbroken
  simp only [List.mem_append, not_or]
  refine ⟨⟨by decide, hn⟩, ?_⟩
  split
  · exact List.not_mem_nil
  · simpa [Line.Unbroken, Text.Unbroken] using h

theorem Error.unbroken_message {e : Error} (hl : e.Cites Line.Unbroken) (hd : e.detail = []) :
    e.message.Unbroken := by
  obtain ⟨l, he, hl⟩ := hl
  have ht : '\n' ∉ e.kind.title.toList := by cases e.kind <;> decide
  have hp : '\n' ∉ place l := unbroken_place hl
  unfold message Text.Unbroken
  simp [he, hd, ht, hp]

namespace Replay

variable {r : Replay} {e : Event}

theorem unbroken_of_fragment? (hv : r.vars.Unbroken) (he : e.Cites Line.Unbroken) {f : Fragment}
    (hf : r.fragment? e = some f) : f.text ≠ [] ∧ f.text.Unbroken := by
  cases e with
  | executed l =>
    simp only [fragment?] at hf
    split at hf
    · next x hr =>
      split at hf
      · cases hf
      · next hne =>
        cases hf
        exact ⟨hne, hv.shown (Text.Unbroken.mono he (Statement.payload_subset hr))⟩
    · cases hf
  | skipped e =>
    cases hf
    have hm := Error.unbroken_message he.1 he.2
    exact ⟨List.cons_ne_nil _ _, by simpa [Fragment.text, Text.Unbroken] using hm⟩
  | _ => cases hf

theorem unbroken_step (hv : r.vars.Unbroken) (he : e.Cites Line.Unbroken) :
    (r.step e).vars.Unbroken := by
  change ([e].foldl step r).vars.Unbroken
  refine vars_foldl_of_forall (P := fun _ v => v.text.Unbroken) hv ?_
  intro l name value hl hr
  cases List.mem_singleton.mp hl
  have hs := List.Subset.trans (Value.text_read_subset value) (Statement.payload_subset hr)
  exact Text.Unbroken.mono he hs

theorem unbroken_fragments (hv : r.vars.Unbroken) {es : List Event}
    (hes : ∀ e ∈ es, e.Cites Line.Unbroken) :
    (∀ f ∈ r.fragments es, f.text ≠ [] ∧ f.text.Unbroken) ∧
      (es.foldl step r).vars.Unbroken := by
  induction es generalizing r with
  | nil => exact ⟨by simp [fragments], hv⟩
  | cons e es ih =>
    obtain ⟨he, hes⟩ := List.forall_mem_cons.mp hes
    obtain ⟨hfs, hvs⟩ := ih (unbroken_step hv he) hes
    refine ⟨fun f hf => ?_, hvs⟩
    rcases List.mem_append.mp hf with hf | hf
    · exact unbroken_of_fragment? hv he (Option.mem_toList.mp hf)
    · exact hfs f hf

end Replay

namespace Session

structure Unbroken (s : Session) : Prop where
  vars : s.vars.Unbroken
  functions : s.functions.Cite Line.Unbroken

variable {s : Session}

theorem Unbroken.run (h : s.Unbroken) (g : Guard) (source : Text) :
    (run g s source).session.Unbroken ∧
      ∀ f ∈ (Session.run g s source).fragments s, f.text ≠ [] ∧ f.text.Unbroken := by
  have hq : ∀ l ∈ Line.split source, l.Unbroken := fun _ => Line.unbroken_of_mem_split
  have hc := cites_run h.functions hq g
  have hes : ∀ e ∈ (Session.run g s source).events, e.Cites Line.Unbroken :=
    fun e he => hc.events e (List.mem_reverse.mp he)
  have ha : (Session.run g s source).machine.Accounted s := accounted_run g s source
  obtain ⟨hfs, hvs⟩ := Replay.unbroken_fragments (r := .ofSession s) h.vars hes
  exact ⟨⟨ha.vars ▸ hvs, hc.functions⟩, hfs⟩

theorem Reachable.unbroken (h : Reachable s) : s.Unbroken := by
  have hempty : Variables.Unbroken {} := by
    intro name v hv
    cases hv
  induction h with
  | new => exact ⟨hempty, .empty _⟩
  | run _ g source ih => exact (ih.run g source).1
  | reset => exact ⟨hempty, .empty _⟩
  | interrupt _ ih => exact ⟨ih.vars, ih.functions⟩

theorem wholeLines_run (hs : Reachable s) (g : Guard) (source : Text) :
    (run g s source).machine.output.WholeLines := by
  intro f hf
  have hi := itemized_run g s source
  rw [← List.mem_reverse, hi] at hf
  obtain ⟨x, hx, rfl⟩ := List.mem_map.mp hf
  obtain ⟨hne, hu⟩ := (hs.unbroken.run g source).2 x hx
  exact ⟨x.text, hne, hu, rfl⟩

end Session

end Unbroken

theorem Outcome.ofSource_of_ok {g : Guard} {source out : Text}
    (h : (Session.run g {} source).result = .ok out) :
    ofSource g (.ok source) =
      { code := 0, stdout := if out = Output.nothing then out ++ ['\n'] else out,
        stderr := [] } := by
  have hw := Session.wholeLines_run .new g source
  have hs := Session.eq_shown_of_ok h
  have ho : ofSource g (.ok source) = { stdout := chomp out ++ ['\n'] } := by
    unfold ofSource
    simp only [Except.bind, h]
  rw [ho]
  congr 1
  split
  · next hn =>
    rw [hn]
    rfl
  · next hn =>
    rw [hs, hw.shown_eq_nothing_iff] at hn
    rw [hs, Output.shown, if_neg (by simpa using hn), hw.chomp_emitted hn]

namespace Session

variable {s : Session}

/--
How an output is framed. The fragments that a run has emitted are those its events tell of, and each
is one line that is not empty. A run that succeeds shows the text that says there is no output
exactly if it has emitted no fragment, and all its fragments, each with a line end, if it has
emitted any; the line ends number the texts printed and the diagnostics together. So the process
that runs a source writes what is shown as it is.
-/
theorem output_framed (hs : Reachable s) (g : Guard) (source : Text) :
    let r := run g s source
    let fragments := r.fragments s
    r.machine.output.fragments.reverse = fragments.map (fun f => f.text ++ ['\n']) ∧
    (∀ f ∈ fragments, f.text ≠ [] ∧ '\n' ∉ f.text) ∧
    (∀ out, r.result = .ok out →
      (out = Output.nothing ↔ fragments = []) ∧
      (fragments ≠ [] → out = fragments.flatMap fun f => f.text ++ ['\n']) ∧
      out.count '\n' =
        fragments.countP Fragment.isPrinted + fragments.countP Fragment.isDiagnostic) ∧
    ∀ out, (run g {} source).result = .ok out →
      Outcome.ofSource g (.ok source) =
        { code := 0, stdout := if out = Output.nothing then out ++ ['\n'] else out,
          stderr := [] } := by
  intro r fragments
  have hi : r.machine.output.fragments.reverse = fragments.map Fragment.line :=
    itemized_run g s source
  have hu : ∀ f ∈ fragments, f.text ≠ [] ∧ f.text.Unbroken := (hs.unbroken.run g source).2
  refine ⟨hi, hu, fun out hok => ?_, fun out => Outcome.ofSource_of_ok⟩
  have hshown : out = r.machine.output.shown := eq_shown_of_ok hok
  have hnil : r.machine.output.fragments = [] ↔ fragments = [] := by
    rw [← List.reverse_eq_nil_iff, hi, List.map_eq_nil_iff]
  have hout : fragments ≠ [] → out = fragments.flatMap Fragment.line := by
    intro hne
    rw [hshown, Output.shown, if_neg (by simpa [hnil] using hne), Output.emitted, hi,
      List.flatMap_def]
  refine ⟨?_, hout, ?_⟩
  · rw [hshown, (wholeLines_run hs g source).shown_eq_nothing_iff]
    exact hnil
  · rw [Fragment.countP_add_countP]
    by_cases hne : fragments = []
    · have hn : out = Output.nothing := by rw [hshown, Output.shown, if_pos (by simp [hnil, hne])]
      rw [hn, hne]
      decide
    · rw [hout hne]
      exact Fragment.count_newline_flatMap fun f hf => (hu f hf).2

/-- A variable holds the text that says there is no output; it is printed, and a call is skipped. -/
theorem output_framed_of_two_fragments :
    ∃ (s : Session) (source : Text), Reachable s ∧ s.vars.fetch ['X'] = .string Output.nothing ∧
      source = "PRINT(X)\nPRINT(\"\")\nCALL F".toList ∧
      (run {} s source).result =
        .ok "No output generated.\n?UNDEFINED FUNCTION IN 3: CALL F\n".toList ∧
      (run {} s source).fragments s ≠ [] ∧
      ((run {} s source).fragments s).countP Fragment.isPrinted +
        ((run {} s source).fragments s).countP Fragment.isDiagnostic = 2 := by
  obtain ⟨s, hs⟩ : ∃ s, s = (run {} {} "X = No output generated.".toList).session := ⟨_, rfl⟩
  have hr : Reachable s := hs ▸ .run .new _ _
  have hok : (run {} s "PRINT(X)\nPRINT(\"\")\nCALL F".toList).result =
      .ok "No output generated.\n?UNDEFINED FUNCTION IN 3: CALL F\n".toList := by
    rw [hs]
    decide +kernel
  obtain ⟨-, -, hframed, -⟩ := output_framed hr {} "PRINT(X)\nPRINT(\"\")\nCALL F".toList
  obtain ⟨hnothing, -, hcount⟩ := hframed _ hok
  refine ⟨s, _, hr, by rw [hs]; decide +kernel, rfl, hok, fun hnil => ?_, ?_⟩
  · exact absurd (hnothing.mpr hnil) (by decide)
  · exact hcount.symm.trans (by decide)

end Session

end LineScript
