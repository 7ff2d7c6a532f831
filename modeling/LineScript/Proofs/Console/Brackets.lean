import LineScript.Console.Draft
import LineScript.Proofs.Nesting.Balance
import LineScript.Proofs.Numbering
import LineScript.Proofs.Reading

/-! # Brackets

Texts are well bracketed if each of them that closes a block closes the innermost open one, or
stands where none is open. For such texts the number of open blocks that a draft counts is the
number of blocks that a scan has on its stack.
-/

namespace LineScript

/-- The open blocks after a line, if it closes no other block than the innermost one. -/
def Stack.afterEdge? (s : Stack) : Option Edge → Option Stack
  | none => some s
  | some (.opens b) => some (b :: s)
  | some (.closes b) =>
    match s with
    | [] => some []
    | a :: s => if a = b then some s else none

/-- Each text that closes a block closes the innermost one of those open, or none is open. -/
def Text.bracketed (s : Stack) : List Text → Bool
  | [] => true
  | t :: ts =>
    match s.afterEdge? (Statement.edge? t) with
    | some s => bracketed s ts
    | none => false

namespace Stack

inductive Turn : Stack → Option Edge → Stack → Prop where
  | stay {s : Stack} : Turn s none s
  | opens {s : Stack} {b : Block} : Turn s (some (.opens b)) (b :: s)
  | closes {s : Stack} {b : Block} : Turn (b :: s) (some (.closes b)) s
  | stray {b : Block} : Turn [] (some (.closes b)) []
  | misfit {s : Stack} {a b : Block} : a ≠ b → Turn (a :: s) (some (.closes b)) (a :: s)

theorem turn_after (s : Stack) (st : Statement) : Turn s st.edge (s.after st) := by
  unfold Statement.edge
  cases ho : st.opens with
  | some b =>
    rw [after_of_opens ho]
    exact .opens
  | none =>
    cases hc : st.closes with
    | none =>
      rw [after_of_neutral ho hc]
      exact .stay
    | some b =>
      cases s with
      | nil =>
        rw [after_nil_of_opens_eq_none ho]
        exact .stray
      | cons a s =>
        by_cases hab : a = b
        · subst hab
          rw [after_of_closes hc]
          exact .closes
        · have hs : after (a :: s) st = a :: s := by simp [after, ho, hc, Ne.symm hab]
          rw [hs]
          exact .misfit hab

namespace Turn

variable {s s' : Stack} {e : Option Edge} {n : Nat}

theorem depthAfter_le (h : Turn s e s') (hn : n ≤ s.length) : Draft.depthAfter n e ≤ s'.length := by
  cases h <;> simp only [Draft.depthAfter, List.length_cons, List.length_nil] at hn ⊢ <;> omega

theorem depthAfter_lt (h : Turn s e s') (hpos : 0 < n) (hn : n < s.length) :
    Draft.depthAfter n e < s'.length := by
  cases h <;> simp only [Draft.depthAfter, List.length_cons, List.length_nil] at hn ⊢ <;> omega

/-- A count that is even stays so exactly if no closer fits another block than the innermost. -/
theorem depthAfter_eq_iff (h : Turn s e s') :
    Draft.depthAfter s.length e = s'.length ↔ (s.afterEdge? e).isSome = true := by
  cases h with
  | stay | opens | closes | stray => simp [Draft.depthAfter, afterEdge?]
  | misfit hab => simp [Draft.depthAfter, afterEdge?, hab]

theorem eq_of_afterEdge? (h : Turn s e s') {s₁ : Stack} (he : s.afterEdge? e = some s₁) :
    s₁ = s' := by
  cases h with
  | stay | opens | closes | stray => simpa [afterEdge?, eq_comm] using he
  | misfit hab => simp [afterEdge?, hab] at he

end Turn

theorem afterEdge?_edge {s s' : Stack} {st : Statement} (h : s.afterEdge? st.edge = some s') :
    s' = s.after st ∧ s'.length = Draft.depthAfter s.length st.edge := by
  have ht := turn_after s st
  obtain rfl := ht.eq_of_afterEdge? h
  exact ⟨rfl, (ht.depthAfter_eq_iff.mpr (by simp [h])).symm⟩

end Stack

theorem Text.bracketed_cons {s : Stack} {t : Text} {ts : List Text} {st : Statement}
    (hr : Statement.read t = .ok st) (h : bracketed s (t :: ts) = true) :
    bracketed (s.after st) ts = true ∧
      (s.after st).length = Draft.depthAfter s.length (Statement.edge? t) := by
  have he := Statement.edge?_of_read hr
  unfold bracketed at h
  split at h
  · next s' hs =>
    rw [he] at hs ⊢
    obtain ⟨rfl, hl⟩ := Stack.afterEdge?_edge hs
    exact ⟨h, hl⟩
  · cases h

theorem Text.bracketed_singleton (s : Stack) (t : Text) :
    bracketed s [t] = (s.afterEdge? (Statement.edge? t)).isSome := by
  unfold bracketed
  cases s.afterEdge? (Statement.edge? t) <;> rfl

theorem Text.bracketed_append {p : Program} (hp : p.IsRead) (s : Stack) (ts : List Text) :
    bracketed s (p.lines.map Line.text ++ ts) =
      (bracketed s (p.lines.map Line.text) && bracketed (s.through p) ts) := by
  induction p generalizing s with
  | nil => rfl
  | cons c p ih =>
    obtain ⟨hc, hp⟩ := List.forall_mem_cons.mp hp
    simp only [Program.lines, List.map_cons, List.cons_append, bracketed,
      Statement.edge?_of_read hc, Stack.through_cons] at ih ⊢
    cases hs : s.afterEdge? c.statement.edge with
    | none => rfl
    | some s' =>
      obtain ⟨rfl, -⟩ := Stack.afterEdge?_edge hs
      exact ih hp _

def Text.contents (ts : List Text) : List Text := (ts.map trim).filter (!·.isEmpty)

namespace Text

theorem contents_append (ts us : List Text) : contents (ts ++ us) = contents ts ++ contents us := by
  unfold contents
  rw [List.map_append, List.filter_append]

theorem contents_cons_of_blank {t : Text} (h : trim t = []) (ts : List Text) :
    contents (t :: ts) = contents ts := by
  simp [contents, h]

theorem contents_append_blank {t : Text} (h : trim t = []) (ts : List Text) :
    contents (ts ++ [t]) = contents ts := by
  rw [contents_append, contents_cons_of_blank h]
  exact List.append_nil _

theorem contents_cons {t : Text} (h : trim t ≠ []) (ts : List Text) :
    contents (t :: ts) = trim t :: contents ts := by
  simp [contents, h]

theorem lines_of_unbroken {t : Text} (h : '\n' ∉ t) : lines (t ++ ['\n']) = [t] := by
  have hs : lines ['\n'] = [[]] := rfl
  rw [lines_append_of_notMem h hs, List.append_nil]

/-- Texts as the lines of one text, each with its line end. -/
def joined (ts : List Text) : Text := ts.flatMap (· ++ ['\n'])

theorem joined_append_singleton (ts : List Text) (t : Text) :
    joined (ts ++ [t]) = joined ts ++ t ++ ['\n'] := by
  simp [joined]

theorem lines_joined {ts : List Text} (h : ∀ t ∈ ts, '\n' ∉ t) : lines (joined ts) = ts := by
  induction ts with
  | nil => rfl
  | cons t ts ih =>
    obtain ⟨ht, hts⟩ := List.forall_mem_cons.mp h
    have hj : joined (t :: ts) = t ++ '\n' :: joined ts := by simp [joined]
    rw [hj, lines_append_newline, lines_of_unbroken ht, ih hts]
    rfl

end Text

namespace Line

theorem texts_split (source : Text) :
    (split source).map Line.text = Text.contents (Text.lines source) := by
  unfold split Text.contents
  generalize Text.lines source = ts
  generalize 1 = n
  induction ts generalizing n with
  | nil => rfl
  | cons t ts ih =>
    rw [List.zipIdx_cons, List.map_cons, List.map_cons, List.filter_cons, List.filter_cons]
    have he : (Line.ofText n t).isEmpty = (Text.trim t).isEmpty := rfl
    dsimp only
    rw [he]
    split
    · rw [List.map_cons, ih]
      rfl
    · exact ih (n + 1)

theorem texts_split_eq_contents (source : Text) :
    (split source).map Line.text = Text.contents (Text.physicalLines source) := by
  rw [texts_split, Text.contents, Text.contents, Text.map_trim_physicalLines]

end Line

end LineScript
