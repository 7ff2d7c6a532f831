import Mathlib.Data.List.Forall2
import LineScript.Line
import LineScript.Proofs.Text.Trimming

/-! # Numbering

The lines of a source are its physical lines without the blank ones, trimmed, each numbered by its
place. It does not matter to that whether a carriage return stands before a line end, and the lines
of a text that stands behind others are numbered on from them.
-/

namespace LineScript

namespace Text

/--
The physical lines of a text. A newline ends a line, alone or with a carriage return before it, and
is no part of it; what follows the last line end is a line only if it is not empty.
-/
def physicalLines : Text → List Text
  | [] => []
  | '\n' :: t => [] :: physicalLines t
  | '\r' :: '\n' :: t => [] :: physicalLines t
  | c :: t => (c :: (physicalLines t).headD []) :: (physicalLines t).tail

/-- What newlines divide is the physical lines, each with the carriage return that it ended with. -/
theorem forall₂_physicalLines (t : Text) :
    List.Forall₂ (fun p l => l = p ∨ l = p ++ ['\r']) (physicalLines t) (lines t) := by
  fun_induction physicalLines t with
  | case1 => exact .nil
  | case2 t ih => exact .cons (.inl rfl) ih
  | case3 t ih => exact .cons (.inr rfl) ih
  | case4 c t hn hr ih =>
    rw [lines_cons]
    unfold consLine
    rw [if_neg hn]
    generalize physicalLines t = ps, lines t = ls at ih ⊢
    cases ih with
    | nil => exact .cons (.inl rfl) .nil
    | cons hp h => exact .cons (by simpa using hp) h

theorem length_physicalLines (t : Text) : (physicalLines t).length = (lines t).length :=
  (forall₂_physicalLines t).length_eq

theorem map_trim_physicalLines (t : Text) :
    (physicalLines t).map trim = (lines t).map trim := by
  rw [← List.forall₂_eq_eq_eq, List.forall₂_map_left_iff, List.forall₂_map_right_iff]
  refine (forall₂_physicalLines t).imp fun p l h => ?_
  rcases h with rfl | rfl
  · rfl
  · exact (trim_append (by simp [Blank, isBlank]) p).symm

theorem newline_notMem_physicalLines {t p : Text} (h : p ∈ physicalLines t) : '\n' ∉ p := by
  fun_induction physicalLines t generalizing p with
  | case1 => cases h
  | case2 t ih | case3 t ih =>
    rcases List.mem_cons.mp h with rfl | h
    · exact List.not_mem_nil
    · exact ih h
  | case4 c t hn hr ih =>
    generalize physicalLines t = ps at ih h
    cases ps with
    | nil =>
      obtain rfl := List.mem_singleton.mp h
      exact List.not_mem_cons_of_ne_of_not_mem (Ne.symm hn) List.not_mem_nil
    | cons q ps =>
      rcases List.mem_cons.mp h with rfl | h
      · exact List.not_mem_cons_of_ne_of_not_mem (Ne.symm hn) (ih List.mem_cons_self)
      · exact ih (List.mem_cons_of_mem q h)

theorem lines_append {a : Text} (ha : a = [] ∨ ['\n'] <:+ a) (b : Text) :
    lines (a ++ b) = lines a ++ lines b := by
  rcases ha with rfl | ⟨a, rfl⟩
  · rfl
  · simpa using lines_append_newline a b

end Text

open Text

namespace Line

def shift (n : Nat) (l : Line) : Line := ⟨l.number + n, l.text⟩

/-- The lines that are not blank, numbered from `k`. -/
def numbered (k : Nat) (ts : List Text) : List Line :=
  ((ts.zipIdx k).map fun (t, n) => ofText n t).filter (!·.isEmpty)

theorem numbered_append (k : Nat) (ts us : List Text) :
    numbered k (ts ++ us) = numbered k ts ++ numbered (k + ts.length) us := by
  simp [numbered, List.zipIdx_append]

theorem numbered_add (k n : Nat) (ts : List Text) :
    numbered (k + n) ts = (numbered k ts).map (shift n) := by
  unfold numbered
  rw [Nat.add_comm, ← List.map_snd_add_zipIdx_eq_zipIdx, List.map_map, List.filter_map,
    List.filter_map, List.map_map]
  rfl

theorem numbered_map_trim (k : Nat) (ts : List Text) :
    numbered k (ts.map trim) = numbered k ts := by
  simp [numbered, List.zipIdx_map, ofText, Function.comp_def]

theorem not_isEmpty_ofText_iff {n : Nat} {t : Text} :
    (!(ofText n t).isEmpty) = true ↔ ¬ Blank t := by
  rw [← trim_eq_nil_iff]
  simp [isEmpty, ofText]

theorem mem_numbered_iff {k : Nat} {ts : List Text} {l : Line} :
    l ∈ numbered k ts ↔ ∃ i t, ts[i]? = some t ∧ ¬ Blank t ∧ l = ofText (k + i) t := by
  simp only [numbered, List.mem_filter, List.mem_map, Prod.exists]
  constructor
  · rintro ⟨⟨t, n, ht, rfl⟩, hb⟩
    obtain ⟨hk, hi⟩ := List.mk_mem_zipIdx_iff_le_and_getElem?_sub.mp ht
    exact ⟨n - k, t, hi, not_isEmpty_ofText_iff.mp hb, by rw [Nat.add_sub_cancel' hk]⟩
  · rintro ⟨i, t, hi, hb, rfl⟩
    have ht : (t, k + i) ∈ ts.zipIdx k := List.mk_add_mem_zipIdx_iff_getElem?.mpr hi
    exact ⟨⟨t, k + i, ht, rfl⟩, not_isEmpty_ofText_iff.mpr hb⟩

theorem pairwise_number_numbered (k : Nat) (ts : List Text) :
    ((numbered k ts).map number).Pairwise (· < ·) := by
  have hnumbers : ((ts.zipIdx k).map Prod.snd).Pairwise (· < ·) := by
    rw [List.zipIdx_map_snd]
    exact List.pairwise_lt_range'
  rw [List.pairwise_map] at hnumbers ⊢
  exact List.Pairwise.filter _ (List.pairwise_map.mpr hnumbers)

variable {source : Text} {l : Line}

theorem split_eq_numbered (source : Text) : split source = numbered 1 (physicalLines source) := by
  rw [← numbered_map_trim, map_trim_physicalLines, numbered_map_trim]
  rfl

theorem pairwise_number_split (source : Text) : ((split source).map number).Pairwise (· < ·) :=
  pairwise_number_numbered 1 (lines source)

theorem mem_split_iff :
    l ∈ split source ↔
      ∃ i t, (physicalLines source)[i]? = some t ∧ ¬ Blank t ∧ l = ⟨i + 1, trim t⟩ := by
  rw [split_eq_numbered, mem_numbered_iff]
  simp only [Nat.add_comm 1]
  rfl

theorem newline_notMem_of_mem_split (h : l ∈ split source) : '\n' ∉ l.text := by
  obtain ⟨i, t, ht, -, rfl⟩ := mem_numbered_iff.mp h
  exact fun hn => newline_notMem_lines (List.mem_of_getElem? ht) (trim_subset t hn)

/-- The lines of a second source are numbered on from the physical lines of the first. -/
theorem split_append_eq_shift {a : Text} (ha : a = [] ∨ ['\n'] <:+ a) (b : Text) :
    split (a ++ b) = split a ++ (split b).map (shift (physicalLines a).length) := by
  have hsplit (t : Text) : split t = numbered 1 (lines t) := rfl
  rw [hsplit, hsplit, hsplit, lines_append ha, numbered_append, numbered_add, length_physicalLines]

/--
Lines are numbered by their places in the source, and splitting respects that. If a text is empty or
ends with a newline, the lines of what follows it come after its own, with their numbers moved on by
the number of its physical lines. In every source the numbers increase and are those of physical
lines; a line is the physical line of its number, trimmed, is not empty and holds no newline; and
each physical line that is not all blank is there.
-/
theorem split_numbers_physical_lines :
    (∀ a b : Text, a = [] ∨ ['\n'] <:+ a →
      split (a ++ b) = split a ++ (split b).map (shift (physicalLines a).length)) ∧
    ∀ source : Text,
      ((split source).map number).Pairwise (· < ·) ∧
      (∀ l ∈ split source,
        (1 ≤ l.number ∧ l.number ≤ (physicalLines source).length) ∧
        (l.text ≠ [] ∧ Trimmed l.text ∧ '\n' ∉ l.text) ∧
        (physicalLines source)[l.number - 1]?.map trim = some l.text) ∧
      ∀ i t, (physicalLines source)[i]? = some t → ¬ Blank t → ⟨i + 1, trim t⟩ ∈ split source := by
  refine ⟨fun a b ha => split_append_eq_shift ha b, fun source => ⟨pairwise_number_split source,
    fun l hl => ?_, fun i t ht hb => mem_split_iff.mpr ⟨i, t, ht, hb, rfl⟩⟩⟩
  obtain ⟨i, t, ht, -, rfl⟩ := mem_split_iff.mp hl
  have hi : i < (physicalLines source).length := (List.getElem?_eq_some_iff.mp ht).1
  refine ⟨⟨by simp, hi⟩, ⟨?_, ?_, ?_⟩, by simp [ht]⟩
  · exact text_ne_nil_of_mem_split hl
  · exact trimmed_of_mem_split hl
  · exact newline_notMem_of_mem_split hl

/--
Three physical lines, two of them blank, stand before a text that ends its first line with a
carriage return and a newline and does not end its last one.
-/
theorem split_numbers_physical_lines_of_returns :
    let a := "X = 1 \r\n\n\t\r\n".toList
    let b := "\u00a0PRINT(X)\r\n\nCALL F".toList
    ['\n'] <:+ a ∧
      physicalLines (a ++ b) = ["X = 1 ".toList, [], ['\t'], "\u00a0PRINT(X)".toList, [],
        "CALL F".toList] ∧
      split (a ++ b) = split a ++ (split b).map (shift 3) ∧
      ⟨4, "PRINT(X)".toList⟩ ∈ split (a ++ b) ∧
      Trimmed "PRINT(X)".toList ∧
      (physicalLines (a ++ b))[3]?.map trim = some "PRINT(X)".toList := by
  intro a b
  have ha : ['\n'] <:+ a := by decide
  have hlines : physicalLines (a ++ b) = ["X = 1 ".toList, [], ['\t'],
      "\u00a0PRINT(X)".toList, [], "CALL F".toList] := by decide +kernel
  have hlength : (physicalLines a).length = 3 := by decide +kernel
  obtain ⟨happend, hsource⟩ := split_numbers_physical_lines
  obtain ⟨-, hmem, hall⟩ := hsource (a ++ b)
  have hprint : ⟨4, "PRINT(X)".toList⟩ ∈ split (a ++ b) := by
    have htrim : trim "\u00a0PRINT(X)".toList = "PRINT(X)".toList := by decide +kernel
    refine htrim ▸ hall 3 _ (by rw [hlines]; rfl) fun hb => ?_
    cases hb 'P' (by decide +kernel)
  obtain ⟨-, ⟨-, htrimmed, -⟩, hplace⟩ := hmem _ hprint
  refine ⟨ha, hlines, ?_, hprint, htrimmed, hplace⟩
  rw [happend a b (.inr ha), hlength]

end Line

end LineScript
