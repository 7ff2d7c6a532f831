import LineScript.Text.Basic

/-! # Physical lines

A line end closes a line. What follows the last line end is a line of its own only if it is not
empty.
-/

namespace LineScript.Text

/-- Puts a character in front of the first line, opening a line at each line end. -/
def consLine (c : Char) (ls : List Text) : List Text :=
  if c = '\n' then [] :: ls
  else match ls with
    | [] => [[c]]
    | l :: ls => (c :: l) :: ls

def lines (t : Text) : List Text := t.foldr consLine []

/-- The text without the line ends that end it. -/
def chomp (t : Text) : Text := (t.reverse.dropWhile (· == '\n')).reverse

@[simp] theorem lines_nil : lines [] = [] := rfl

@[simp] theorem lines_cons (c : Char) (t : Text) : lines (c :: t) = consLine c (lines t) := rfl

theorem consLine_ne_nil (c : Char) (ls : List Text) : consLine c ls ≠ [] := by
  unfold consLine
  split
  · simp
  · split <;> simp

theorem consLine_append (c : Char) {ls : List Text} (h : ls ≠ []) (ms : List Text) :
    consLine c (ls ++ ms) = consLine c ls ++ ms := by
  obtain ⟨l, ls, rfl⟩ := List.exists_cons_of_ne_nil h
  unfold consLine
  split <;> rfl

/-- Lines can be cut out on either side of a line end. -/
theorem lines_append_newline (a b : Text) :
    lines (a ++ '\n' :: b) = lines (a ++ ['\n']) ++ lines b := by
  induction a with
  | nil => rfl
  | cons c a ih =>
    have hne : lines (a ++ ['\n']) ≠ [] := by
      cases a with
      | nil => simp [consLine]
      | cons d a => exact consLine_ne_nil _ _
    rw [List.cons_append, lines_cons, ih, consLine_append c hne]
    rfl

theorem lines_append_of_notMem {s t l : Text} {ls : List Text} (h : '\n' ∉ t)
    (hs : lines s = l :: ls) : lines (t ++ s) = (t ++ l) :: ls := by
  induction t with
  | nil => exact hs
  | cons c t ih =>
    simp only [List.mem_cons, not_or] at h
    rw [List.cons_append, lines_cons, ih h.2]
    simp [consLine, Ne.symm h.1]

theorem newline_notMem_lines {t l : Text} (h : l ∈ lines t) : '\n' ∉ l := by
  induction t generalizing l with
  | nil => simp at h
  | cons c t ih =>
    simp only [lines_cons, consLine] at h
    split at h
    · rcases List.mem_cons.mp h with rfl | h
      · simp
      · exact ih h
    · next hc =>
      split at h
      · simp only [List.mem_singleton] at h
        subst h
        simpa using Ne.symm hc
      · next heq =>
        rcases List.mem_cons.mp h with rfl | h
        · have := ih (l := _) (by rw [heq]; exact List.mem_cons_self ..)
          simpa [Ne.symm hc] using this
        · exact ih (by rw [heq]; exact List.mem_cons_of_mem _ h)

end LineScript.Text
