import Mathlib.Data.List.Basic
import LineScript.Text.Blank

/-! # Trimming

A text is what trimming leaves of it, between blanks, and that is all there is to trimming: more
blanks at an end change nothing, and no character is left that was not there.
-/

namespace LineScript.Text

def Blank (t : Text) : Prop := ∀ c ∈ t, isBlank c = true

theorem exists_blank_trim (t : Text) : ∃ a b, Blank a ∧ Blank b ∧ t = a ++ (trim t ++ b) := by
  obtain ⟨b, hb, ht⟩ := trimEnd_prefix (trimStart t)
  refine ⟨t.takeWhile isBlank, b, ?_, hb, ?_⟩
  · intro c hc
    exact List.all_eq_true.mp List.all_takeWhile c hc
  · calc t = t.takeWhile isBlank ++ trimStart t := List.takeWhile_append_dropWhile.symm
      _ = t.takeWhile isBlank ++ (trim t ++ b) := by
        rw [ht]
        rfl

theorem trimStart_append {a : Text} (ha : Blank a) (t : Text) :
    trimStart (a ++ t) = trimStart t := List.dropWhile_append_of_pos ha

theorem trimEnd_append {b : Text} (hb : Blank b) (t : Text) : trimEnd (t ++ b) = trimEnd t := by
  have hr : ∀ c ∈ b.reverse, isBlank c = true := fun c hc => hb c (List.mem_reverse.mp hc)
  unfold trimEnd
  rw [List.reverse_append, List.dropWhile_append_of_pos hr]

/-- What trimming leaves of a text is that part of it with blanks around and none at its ends. -/
theorem trim_eq_iff {t x : Text} :
    trim t = x ↔ Trimmed x ∧ ∃ a b, Blank a ∧ Blank b ∧ t = a ++ (x ++ b) := by
  constructor
  · rintro rfl
    exact ⟨trimmed_trim t, exists_blank_trim t⟩
  · rintro ⟨hx, a, b, ha, hb, rfl⟩
    rw [trim, trimStart_append ha]
    by_cases hn : x = []
    · subst hn
      rw [List.nil_append, ← List.append_nil b, trimStart_append hb]
      rfl
    · have hs : trimStart (x ++ b) = x ++ b := by
        refine dropWhile_isBlank_eq_self ?_
        rw [List.head?_append_of_ne_nil x hn]
        exact hx.1
      rw [hs, trimEnd_append hb, trimEnd_eq_self hx.2]

theorem trim_append {b : Text} (hb : Blank b) (t : Text) : trim (t ++ b) = trim t := by
  obtain ⟨a, c, ha, hc, ht⟩ := exists_blank_trim t
  refine trim_eq_iff.mpr ⟨trimmed_trim t, a, c ++ b, ha, ?_, ?_⟩
  · exact List.forall_mem_append.mpr ⟨hc, hb⟩
  · conv_lhs => rw [ht]
    simp

theorem trim_eq_nil_iff {t : Text} : trim t = [] ↔ Blank t := by
  constructor
  · intro h
    obtain ⟨-, a, b, ha, hb, rfl⟩ := trim_eq_iff.mp h
    exact List.forall_mem_append.mpr ⟨ha, hb⟩
  · intro h
    exact trim_append h []

theorem trim_subset (t : Text) : trim t ⊆ t := by
  have hs : trimStart t ⊆ t := (List.dropWhile_sublist _).subset
  have he : trimEnd (trimStart t) ⊆ trimStart t := by
    intro c hc
    unfold trimEnd at hc
    rw [List.mem_reverse] at hc
    exact List.mem_reverse.mp ((List.dropWhile_sublist _).subset hc)
  exact List.Subset.trans he hs

end LineScript.Text
