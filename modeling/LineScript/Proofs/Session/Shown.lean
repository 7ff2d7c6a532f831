import LineScript.Proofs.Session.Reachable

/-! # What a run shows

Every fragment that a run emits holds a line end, and the text shown for a run that emitted nothing
holds none. So what a run has emitted can be told from what is shown for it.
-/

namespace LineScript

namespace Output

/-- What is shown for an emitted text. -/
def showing (emitted : Text) : Text := if emitted = [] then nothing else emitted

/-- The emitted text for which this is shown. -/
def emittedIn (shown : Text) : Text := if shown = nothing then [] else shown

def Terminated (o : Output) : Prop := ∀ f ∈ o.fragments, '\n' ∈ f

namespace Terminated

variable {o : Output}

theorem append (h : o.Terminated) (t : Text) : (o.append t).Terminated := by
  intro f hf
  rcases List.mem_cons.mp hf with rfl | hf
  · simp
  · exact h f hf

theorem print (h : o.Terminated) (t : Text) : (o.print t).Terminated := by
  unfold Output.print
  split
  · exact h
  · exact h.append t

theorem newline_mem_emitted (h : o.Terminated) (hne : o.fragments ≠ []) : '\n' ∈ o.emitted := by
  obtain ⟨f, hf⟩ := List.exists_mem_of_ne_nil _ hne
  simp only [emitted, List.mem_flatten, List.mem_reverse]
  exact ⟨f, hf, h f hf⟩

theorem shown_eq (h : o.Terminated) :
    o.shown = showing o.emitted ∧ emittedIn o.shown = o.emitted := by
  by_cases hne : o.fragments = []
  · simp [shown, showing, emittedIn, emitted, hne]
  · have hm := h.newline_mem_emitted hne
    have hn : o.emitted ≠ nothing := by
      intro he
      have : '\n' ∉ nothing := by decide
      exact this (he ▸ hm)
    simp [shown, showing, emittedIn, hne, hn, List.ne_nil_of_mem hm]

theorem shown_append {o₁ o₂ : Output} (h₁ : o₁.Terminated) (h₂ : o₂.Terminated) :
    shown ⟨o₂.fragments ++ o₁.fragments⟩ = showing (emittedIn o₁.shown ++ emittedIn o₂.shown) := by
  have ht : Terminated ⟨o₂.fragments ++ o₁.fragments⟩ := by
    intro f hf
    rcases List.mem_append.mp hf with hf | hf
    · exact h₂ f hf
    · exact h₁ f hf
  rw [ht.shown_eq.1, h₁.shown_eq.2, h₂.shown_eq.2]
  simp [emitted]

end Terminated

end Output

theorem Machine.Change.terminated {g : Guard} {c : Command} {rest : Program} {m m' : Machine}
    (h : Change g c rest m m') (hm : m.output.Terminated) : m'.output.Terminated := by
  cases h with
  | none | assign | select | define | call => exact hm
  | print => exact hm.print _
  | @decide condition => cases condition <;> exact hm
  | undefined | unrecognized => exact hm.append _

theorem Point.preserved_terminated (g : Guard) :
    Preserved g (fun m => m.output.Terminated) fun _ => True where
  enter := fun scope _ h => by cases scope <;> exact h
  leave := fun scope _ h => by cases scope <;> exact h
  action := by
    intro f c rest m _ hm _
    refine Action.machine_ofCommand (P := fun m' => m'.output.Terminated) hm hm ?_
    exact fun _ _ _ hc => hc.terminated hm
  advance := fun _ _ _ => trivial
  block := fun _ _ _ _ => trivial
  call := fun _ _ _ => trivial

theorem Exec.terminated_of_run {g : Guard} {p : Program} {m m' : Machine} {u : Unit}
    (hm : m.output = {}) (h : run g p m = .ok u m') : m'.output.Terminated := by
  have hstart : m.output.Terminated := by
    rintro f hf
    rw [hm] at hf
    cases hf
  exact ((reaches_of_run_eq_ok h).preserved (Point.preserved_terminated g) hstart trivial).1

namespace Session

variable {g : Guard} {s : Session} {source shown : Text}

theorem terminated_run (g : Guard) (s : Session) (source : Text) :
    (run g s source).machine.output.Terminated :=
  machine_run_preserved (Point.preserved_terminated g) (fun f hf => by cases hf)
    (fun _ _ => trivial) (fun _ _ hm => hm) (fun _ _ hm => hm)

theorem eq_shown_of_ok (h : (run g s source).result = .ok shown) :
    shown = (run g s source).machine.output.shown := by
  cases hp : Program.ofText source with
  | error e =>
    rw [run_of_ofText_eq_error hp] at h
    cases h
  | ok p =>
    obtain ⟨m, hr, rfl⟩ := exec_of_result_eq_ok hp h
    rw [run_of_ofText_eq_ok hp, hr]
    rfl

theorem shown_of_ok (h : (run g s source).result = .ok shown) :
    shown = Output.showing (run g s source).machine.output.emitted :=
  (eq_shown_of_ok h).trans (terminated_run g s source).shown_eq.1

end Session

end LineScript
