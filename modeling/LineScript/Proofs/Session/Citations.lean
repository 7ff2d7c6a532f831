import LineScript.Proofs.Session.Reachable

/-! # The lines that a run cites

Lines pass through many hands: a definition keeps those of its body, a call reads them again, and
events and errors name one. What holds of all lines of a source, and of all lines that the session
keeps, holds of every line that a run of the source executes, keeps or names.
-/

namespace LineScript

def Error.Cites (Q : Line → Prop) (e : Error) : Prop := ∃ l, e.line = some l ∧ Q l

def Functions.Cite (Q : Line → Prop) (t : Functions) : Prop :=
  ∀ name body, t.get? name = some body → ∀ l ∈ body, Q l

theorem Functions.Cite.empty (Q : Line → Prop) : Functions.Cite Q {} := by
  intro name body h
  cases h

theorem Functions.Cite.mono {Q Q' : Line → Prop} {t : Functions} (h : t.Cite Q)
    (hq : ∀ l, Q l → Q' l) : t.Cite Q' :=
  fun name body hget l hl => hq l (h name body hget l hl)

/--
What an event names is among these lines. A diagnostic that is skipped says no more than that.
-/
def Event.Cites (Q : Line → Prop) : Event → Prop
  | .executed l => Q l
  | .skipped e => e.Cites Q ∧ e.detail = []
  | _ => True

/-- Every line that the machine keeps, and every line that it has reported, is one of these. -/
structure Machine.Cites (Q : Line → Prop) (m : Machine) : Prop where
  functions : m.functions.Cite Q
  events : ∀ e ∈ m.events, e.Cites Q

variable {Q : Line → Prop}

namespace Machine

variable {m : Machine}

theorem Cites.report (h : m.Cites Q) {e : Event} (he : e.Cites Q) : (m.report e).Cites Q :=
  ⟨h.functions, List.forall_mem_cons.mpr ⟨he, h.events⟩⟩

theorem Cites.skip (h : m.Cites Q) {l : Line} (hl : Q l) (k : ErrorKind) :
    (m.skip ⟨k, some l, []⟩).Cites Q := by
  have hr := h.report (e := .skipped ⟨k, some l, []⟩) ⟨⟨l, rfl, hl⟩, rfl⟩
  exact ⟨hr.functions, hr.events⟩

theorem Cites.defined (h : m.Cites Q) (name : Text) {body : List Line} (hb : ∀ l ∈ body, Q l) :
    (m.defined name body).Cites Q := by
  refine ⟨fun name' body' hget => ?_, (h.report (e := .defined name body.length) trivial).events⟩
  simp only [Machine.defined, Table.get?_insert] at hget
  split at hget
  · cases hget
    exact hb
  · exact h.functions name' body' hget

theorem Change.cites {g : Guard} {c : Command} {rest : Program} {m' : Machine}
    (h : Change g c rest m m') (hm : m.Cites Q) (hq : ∀ d ∈ c :: rest, Q d.line) :
    m'.Cites Q := by
  have hc := hq c List.mem_cons_self
  cases h with
  | none | assign | print => exact ⟨hm.functions, hm.events⟩
  | @decide condition =>
    cases condition with
    | compare lhs op rhs => exact hm.report trivial
    | invalid text => exact (hm.report (e := .undecided text) trivial).report trivial
  | select | call => exact hm.report trivial
  | define =>
    refine hm.defined _ fun l hl => ?_
    obtain ⟨d, hd, rfl⟩ := List.mem_map.mp hl
    exact hq d (List.mem_cons_of_mem c (List.mem_of_mem_take hd))
  | undefined | unrecognized => exact hm.skip hc _

end Machine

theorem Frame.cites_segment {f : Frame} {c : Command} {rest : Program}
    (h : ∀ d ∈ f.program, Q d.line) (hs : f.segment = c :: rest) : ∀ d ∈ c :: rest, Q d.line :=
  fun d hd => h d (mem_program_of_segment hs hd)

namespace Point

variable {g : Guard}

theorem preserved_cites (g : Guard) (Q : Line → Prop) :
    Preserved g (Machine.Cites Q) (fun f => ∀ c ∈ f.program, Q c.line) where
  enter := fun scope _ h => by cases scope <;> exact ⟨h.functions, h.events⟩
  leave := fun scope _ h => by cases scope <;> exact ⟨h.functions, h.events⟩
  action := by
    intro f c rest m hs hm hf
    have hq := Frame.cites_segment hf hs
    refine Action.machine_ofCommand (P := Machine.Cites Q) ⟨hm.functions, hm.events⟩
      ⟨hm.functions, hm.events⟩ fun _ _ m' hc => ?_
    have ha := hm.report (e := .executed c.line) (hq c List.mem_cons_self)
    exact hc.cites ⟨ha.functions, ha.events⟩ hq
  advance := fun _ _ hf => hf
  block := fun _ _ _ hf => hf
  call := by
    intro m name body p hm hget hp c hc
    refine hm.functions name body hget c.line ?_
    rw [← Program.lines_of_ofLines hp]
    exact List.mem_map_of_mem hc

theorem Fails.cites {pt : Point} {e : Error} {m' : Machine} (h : Fails g pt e m')
    (hm : pt.machine.Cites Q) (hf : ∀ f ∈ pt.frames, ∀ c ∈ f.program, Q c.line) : e.Cites Q := by
  have hq {f : Frame} {fs : List Frame} {c : Command} {rest : Program}
      (hf : ∀ f' ∈ f :: fs, ∀ d ∈ f'.program, Q d.line) (hs : f.segment = c :: rest) : Q c.line :=
    Frame.cites_segment (hf f List.mem_cons_self) hs c List.mem_cons_self
  cases h with
  | enter hs => exact ⟨_, rfl, hq hf hs⟩
  | call hs => exact ⟨_, rfl, hq hf hs⟩
  | @action m m' f fs c rest e hs ha =>
    have hk := Action.control_ofCommand g c rest m
    rw [ha] at hk
    cases hk with
    | interrupted | steps | callDepth | unclosed => exact ⟨c.line, rfl, hq hf hs⟩
    | malformed hget hp =>
      obtain ⟨pre, l, post, _, rfl, -, -, rfl⟩ := Program.exists_of_ofLines_eq_error hp
      exact ⟨l, rfl, hm.functions _ _ hget l (by simp)⟩

end Point

namespace Session

variable {g : Guard} {s : Session} {source : Text}

theorem cites_machine (hs : s.functions.Cite Q) : (s.machine g source).Cites Q := by
  have hnew : (Machine.ofSession g s).Cites Q := ⟨hs, fun e he => by cases he⟩
  exact hnew.report trivial

theorem cites_program (hq : ∀ l ∈ Line.split source, Q l) {p : Program}
    (hp : Program.ofText source = .ok p) : ∀ c ∈ p, Q c.line := by
  intro c hc
  refine hq c.line ?_
  rw [← Program.lines_of_ofLines hp]
  exact List.mem_map_of_mem hc

/-- A run cites lines of its source and lines that the session kept, and no others. -/
theorem cites_run (hs : s.functions.Cite Q) (hq : ∀ l ∈ Line.split source, Q l) (g : Guard) :
    (run g s source).machine.Cites Q :=
  machine_run_preserved (Point.preserved_cites g Q) (cites_machine hs)
    (fun _ hp => cites_program hq hp) (fun _ _ hm => hm.report trivial)
    (fun _ _ hm => hm.report trivial)

end Session

end LineScript
