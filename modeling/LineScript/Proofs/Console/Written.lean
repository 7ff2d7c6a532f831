import LineScript.Console.Dialogue
import LineScript.Proofs.Session.Shown
import LineScript.Proofs.Session.Unbroken

/-! # What is written for a run

The line ends at the end of an output are taken away and one is put back. For an output of whole
lines that is the output itself, so what is written for the runs of a session, one after the other,
is all that they emitted.
-/

namespace LineScript

def Report.emits (r : Report) : Bool := !r.machine.output.fragments.isEmpty

namespace Text

theorem chomp_append_newline {t : Text} (ht : t ≠ []) (hu : t.Unbroken) (s : Text) :
    chomp (s ++ (t ++ ['\n'])) = s ++ t := by
  obtain ⟨t, c, rfl⟩ := (List.eq_nil_or_concat t).resolve_left ht
  have hc : c ≠ '\n' := by
    rintro rfl
    exact hu (by simp)
  simp [chomp, hc]

end Text

namespace Output

theorem emitted_cons (f : Text) (fs : List Text) :
    emitted ⟨f :: fs⟩ = emitted ⟨fs⟩ ++ f := by
  simp [emitted]

theorem WholeLines.chomp_emitted {o : Output} (h : o.WholeLines) (hne : o.fragments ≠ []) :
    Text.chomp o.emitted ++ ['\n'] = o.emitted := by
  obtain ⟨fs⟩ := o
  cases fs with
  | nil => exact absurd rfl hne
  | cons f fs =>
    obtain ⟨t, ht, hu, rfl⟩ := h f List.mem_cons_self
    rw [emitted_cons, Text.chomp_append_newline ht hu, List.append_assoc]

theorem WholeLines.shown_eq_nothing_iff {o : Output} (h : o.WholeLines) :
    o.shown = nothing ↔ o.fragments = [] := by
  have ht : o.Terminated := by
    intro f hf
    obtain ⟨t, -, -, rfl⟩ := h f hf
    simp
  constructor
  · intro he
    by_contra hne
    have hm := ht.newline_mem_emitted hne
    rw [← ht.shown_eq.2, he] at hm
    simp [emittedIn] at hm
  · intro he
    simp [shown, he]

end Output

namespace Dialogue

/-- The fragments that runs have emitted, latest first. -/
def fragments (rs : List Report) : List Text := rs.reverse.flatMap (·.machine.output.fragments)

theorem fragments_cons (r : Report) (rs : List Report) :
    fragments (r :: rs) = fragments rs ++ r.machine.output.fragments := by
  simp [fragments]

/-- What is written for the runs that emitted something is what all of them emitted. -/
theorem flatMap_written {rs : List Report} (hok : ∀ r ∈ rs, r.result = .ok r.machine.output.shown)
    (hw : Output.WholeLines ⟨fragments rs⟩) :
    (rs.filter Report.emits).flatMap (fun r => written r.result) =
      Output.emitted ⟨fragments rs⟩ := by
  induction rs with
  | nil => rfl
  | cons r rs ih =>
    obtain ⟨hr, hrs⟩ := List.forall_mem_cons.mp hok
    rw [fragments_cons] at hw ⊢
    have hw' : Output.WholeLines ⟨fragments rs⟩ :=
      fun f hf => hw f (List.mem_append_left _ hf)
    have hwr : r.machine.output.WholeLines := fun f hf => hw f (List.mem_append_right _ hf)
    have he : Output.emitted ⟨fragments rs ++ r.machine.output.fragments⟩ =
        r.machine.output.emitted ++ Output.emitted ⟨fragments rs⟩ := by
      simp [Output.emitted]
    rw [he, ← ih hrs hw', List.filter_cons]
    by_cases hne : r.machine.output.fragments = []
    · have hs : r.machine.output.emitted = [] := by simp [Output.emitted, hne]
      rw [if_neg (by simp [Report.emits, hne]), hs]
      rfl
    · have hs : written r.result = r.machine.output.emitted := by
        rw [hr, written, Output.shown, if_neg (by simpa using hne)]
        exact hwr.chomp_emitted hne
      rw [if_pos (by simpa [Report.emits] using hne), List.flatMap_cons, hs]

end Dialogue

end LineScript
