import LineScript.Proofs.Machine.Tracking
import LineScript.Proofs.Numbering
import LineScript.Proofs.Session.Reachable

/-! # Unbroken text

The lines of a source hold no line end, and neither does anything that is read from them, stored,
or printed. So each fragment of an output, as long as no diagnostic is among them, is one line that
is not empty, with its line end.
-/

namespace LineScript

namespace Text

def Unbroken (t : Text) : Prop := '\n' ∉ t

theorem Unbroken.mono {s t : Text} (h : Unbroken t) (hs : s ⊆ t) : Unbroken s :=
  fun hn => h (hs hn)

theorem unquote?_subset {t s : Text} (h : unquote? t = some s) : s ⊆ t := by
  rw [unquote?_eq_some_iff.mp h]
  intro c hc
  simp [hc]

theorem dropSuffix?_subset {s t r : Text} (h : dropSuffix? s t = some r) : r ⊆ t := by
  rw [dropSuffix?_eq_some_iff.mp h]
  exact List.subset_append_left r s

theorem dropPrefix?_subset {p t r : Text} (h : dropPrefix? p t = some r) : r ⊆ t := by
  rw [dropPrefix?_eq_some_iff.mp h]
  exact List.subset_append_right p r

end Text

open Text

theorem Value.text_read_subset (t : Text) : (read t).text ⊆ t := by
  unfold read
  dsimp only
  split
  · next s hs => exact List.Subset.trans (unquote?_subset hs) (trim_subset t)
  · split
    · exact trim_subset t
    · exact trim_subset t

namespace Statement

def payload : Statement → Text
  | assign _ value => value
  | print (.literal text) | print (.token text) => text
  | _ => []

theorem subset_of_assignment? {t name value : Text} (h : assignment? t = some (name, value)) :
    value ⊆ t := by
  unfold assignment? at h
  split at h
  · next hd =>
    cases h
    have hs := (List.dropWhile_sublist (l := t) isNameChar).subset
    rw [hd] at hs
    intro c hc
    exact hs (List.mem_cons_of_mem _ (List.mem_cons_of_mem _ (trim_subset _ hc)))
  · cases h

theorem payload_subset_of_readPrint {t : Text} {s : Statement} (h : readPrint t = .ok s) :
    s.payload ⊆ t := by
  unfold readPrint at h
  split at h
  · cases h
  · next u hu =>
    split at h
    · cases h
    · next v hv =>
      have hvt : trim v ⊆ t := List.Subset.trans (trim_subset v)
        (List.Subset.trans (dropSuffix?_subset hv) (dropPrefix?_subset hu))
      dsimp only at h
      split at h
      · cases h
      · split at h
        · next hq =>
          cases h
          exact List.Subset.trans (unquote?_subset hq) hvt
        · cases h
          exact hvt

theorem payload_subset {t : Text} {s : Statement} (h : read t = .ok s) : s.payload ⊆ t := by
  unfold read at h
  split at h
  · next name value ha =>
    cases h
    exact subset_of_assignment? ha
  · split at h
    · next word rest hl =>
      have hw := ledBy_of_readAfter h
      have hr : rest ⊆ t := by
        obtain ⟨k, -, hk⟩ := List.exists_of_findSome?_eq_some hl
        obtain ⟨r, hr, he⟩ := Option.map_eq_some_iff.mp hk
        cases he
        rw [(Keyword.after?_eq_some_iff.mp hr).1]
        exact List.subset_append_right _ _
      cases hw with
      | print e =>
        exact List.Subset.trans (payload_subset_of_readPrint h)
          (List.Subset.trans (trim_subset rest) hr)
      | _ => exact List.nil_subset t
    · cases h
      exact List.nil_subset t

end Statement

def Variables.Unbroken (vars : Variables) : Prop :=
  ∀ name v, vars.get? name = some v → v.text.Unbroken

namespace Variables.Unbroken

variable {vars : Variables}

theorem shown (h : vars.Unbroken) {e : Expression} (he : (Statement.print e).payload.Unbroken) :
    (e.shown vars).Unbroken := by
  cases e with
  | literal t => exact he
  | token t =>
    change ((vars.get? (trim t)).getD (.read t)).text.Unbroken
    cases hv : vars.get? (trim t) with
    | some v => exact h _ v hv
    | none => exact Text.Unbroken.mono he (Value.text_read_subset t)

theorem store (h : vars.Unbroken) (name : Text) {value : Text} (hv : value.Unbroken) :
    (vars.store name (.read value)).Unbroken := by
  intro name' v hget
  simp only [Variables.store, Table.get?_insert] at hget
  split at hget
  · cases hget
    exact hv.mono (Value.text_read_subset value)
  · exact h name' v hget

end Variables.Unbroken

def Program.Unbroken (p : Program) : Prop := p.IsRead ∧ ∀ c ∈ p, c.line.text.Unbroken

theorem Program.Unbroken.payload {p : Program} (h : p.Unbroken) {c : Command} (hc : c ∈ p) :
    c.statement.payload.Unbroken :=
  (h.2 c hc).mono (Statement.payload_subset (h.1 c hc))

/-- Every fragment is one line that is not empty, with its line end. -/
def Output.WholeLines (o : Output) : Prop :=
  ∀ f ∈ o.fragments, ∃ t, t ≠ [] ∧ Text.Unbroken t ∧ f = t ++ ['\n']

namespace Machine

/-- Nothing that is stored holds a line end, and nothing but the end of a fragment does. -/
structure Unbroken (m : Machine) : Prop where
  vars : ∀ name v, m.vars.get? name = some v → v.text.Unbroken
  functions : ∀ name body, m.functions.get? name = some body → ∀ l ∈ body, l.text.Unbroken
  output : m.Quiet → m.output.WholeLines

variable {m : Machine}

theorem Unbroken.printed (h : m.Unbroken) {e : Expression}
    (he : (Statement.print e).payload.Unbroken) : (m.printed e).Unbroken := by
  refine ⟨h.vars, h.functions, fun hq f hf => ?_⟩
  simp only [Machine.printed, Output.print] at hf
  split at hf
  · exact h.output hq f hf
  · next hne =>
    rcases List.mem_cons.mp hf with rfl | hf
    · exact ⟨e.shown m.vars, by simpa using hne, Variables.Unbroken.shown h.vars he, rfl⟩
    · exact h.output hq f hf

theorem Unbroken.assigned (h : m.Unbroken) (name : Text) {value : Text} (hv : value.Unbroken) :
    (m.assigned name value).Unbroken :=
  ⟨Variables.Unbroken.store h.vars name hv, h.functions, h.output⟩

theorem Unbroken.defined (h : m.Unbroken) (name : Text) {body : List Line}
    (hb : ∀ l ∈ body, l.text.Unbroken) : (m.defined name body).Unbroken := by
  refine ⟨h.vars, fun name' body' hget => ?_, fun hq => h.output (hq.of_report)⟩
  simp only [Machine.defined, Table.get?_insert] at hget
  split at hget
  · cases hget
    exact hb
  · exact h.functions name' body' hget

theorem Unbroken.report (h : m.Unbroken) (e : Event) : (m.report e).Unbroken :=
  ⟨h.vars, h.functions, fun hq => h.output hq.of_report⟩

theorem Unbroken.skip (h : m.Unbroken) (e : Error) : (m.skip e).Unbroken :=
  ⟨h.vars, h.functions, fun hq => absurd List.mem_cons_self (hq e)⟩

theorem Change.unbroken {g : Guard} {c : Command} {rest : Program} {m' : Machine}
    (h : Change g c rest m m') (hm : m.Unbroken) (hp : Program.Unbroken (c :: rest)) :
    m'.Unbroken := by
  have hc := hp.payload List.mem_cons_self
  cases h with
  | none => exact hm
  | assign hs =>
    rw [hs] at hc
    exact hm.assigned _ hc
  | print hs =>
    rw [hs] at hc
    exact hm.printed hc
  | @decide condition hs =>
    cases condition with
    | compare lhs op rhs => exact hm.report _
    | invalid text => exact (hm.report _).report _
  | select => exact hm.report _
  | define hs hcl =>
    refine hm.defined _ fun l hl => ?_
    obtain ⟨d, hd, rfl⟩ := List.mem_map.mp hl
    exact hp.2 d (List.mem_cons_of_mem c (List.mem_of_mem_take hd))
  | call => exact hm.report _
  | undefined => exact hm.skip _
  | unrecognized => exact hm.skip _

end Machine

theorem Action.unbroken_ofCommand {c : Command} {rest : Program} {m : Machine} (hm : m.Unbroken)
    (hp : Program.Unbroken (c :: rest)) (g : Guard) : (ofCommand g c rest m).machine.Unbroken := by
  have hcalm : m.calmed.Unbroken := ⟨hm.vars, hm.functions, hm.output⟩
  have hcount : m.counted.Unbroken := ⟨hm.vars, hm.functions, hm.output⟩
  refine machine_ofCommand (P := Machine.Unbroken) hcalm hcount fun _ _ m' hc => ?_
  refine hc.unbroken ⟨hm.vars, hm.functions, fun hq => ?_⟩ hp
  exact hm.output (Machine.Quiet.of_report (e := .executed c.line) hq)

theorem Frame.unbroken_segment {f : Frame} {c : Command} {rest : Program}
    (h : f.program.Unbroken) (hs : f.segment = c :: rest) : Program.Unbroken (c :: rest) := by
  have hmem : ∀ d ∈ c :: rest, d ∈ f.program := fun d hd => mem_program_of_segment hs hd
  exact ⟨h.1.mono hmem, fun d hd => h.2 d (hmem d hd)⟩

theorem Point.preserved_unbroken (g : Guard) :
    Preserved g Machine.Unbroken (·.program.Unbroken) where
  enter := fun scope _ h => by cases scope <;> exact ⟨h.vars, h.functions, h.output⟩
  leave := fun scope _ h => by cases scope <;> exact ⟨h.vars, h.functions, h.output⟩
  action := fun hs hm hf => Action.unbroken_ofCommand hm (Frame.unbroken_segment hf hs) g
  advance := fun _ _ hf => hf
  block := fun _ _ _ hf => hf
  call := by
    intro m name body p hm hget hp
    obtain ⟨hl, hr⟩ := Program.ofLines_eq_ok_iff.mp hp
    refine ⟨hr, fun d hd => hm.functions _ _ hget _ ?_⟩
    rw [← hl]
    exact List.mem_map_of_mem hd

theorem Line.unbroken_of_mem_split {source : Text} {l : Line} (h : l ∈ split source) :
    l.text.Unbroken := newline_notMem_of_mem_split h

/-- A run of a source in a new session leaves an output of whole lines, none of them empty. -/
theorem Exec.unbroken_of_run {g : Guard} {source : Text} {p : Program} {m : Machine} {u : Unit}
    (hp : Program.ofText source = .ok p)
    (h : Exec.run g p (Session.machine g {} source) = .ok u m) : m.Unbroken := by
  have hstart : (Session.machine g {} source).Unbroken := by
    refine ⟨?_, ?_, ?_⟩
    · intro name v hv
      cases hv
    · intro name body hb
      cases hb
    · intro _ f hf
      cases hf
  have hprogram : p.Unbroken := by
    obtain ⟨hl, hr⟩ := Program.ofLines_eq_ok_iff.mp hp
    refine ⟨hr, fun c hc => ?_⟩
    have hs : c.line ∈ Line.split source := hl ▸ List.mem_map_of_mem hc
    exact Line.unbroken_of_mem_split hs
  exact ((Exec.reaches_of_run_eq_ok h).preserved (Point.preserved_unbroken g) hstart hprogram).1

end LineScript
