import LineScript.Proofs.Condition.Quotes
import LineScript.Proofs.Reading
import LineScript.Proofs.Spelling

/-! # Writing statements

Every statement has a line on which it is written. What the reader puts into the fields of a
statement is legible: names are names, other fields are trimmed, and the operands of a comparison
hold no operator outside quotes. A legible statement is read back from the line on which it is
written, so reading that line again changes nothing.
-/

namespace LineScript

open Text

namespace Condition

/-- The comparison, or the text that is none, between `IF` and `THEN`. -/
def render : Condition → Text
  | compare lhs op rhs => ' ' :: (lhs ++ ' ' :: (op.spelling ++ ' ' :: rhs))
  | invalid text => ' ' :: ' ' :: text

def Legible : Condition → Prop
  | compare lhs _ rhs => (Trimmed lhs ∧ lhs ≠ []) ∧ (Trimmed rhs ∧ rhs ≠ []) ∧
      (divide? lhs = none ∧ insideAfter false lhs = false) ∧ divide? rhs = none
  | invalid text => (Trimmed text ∧ text ≠ []) ∧ ofText text = .invalid text

theorem legible_ofText {t : Text} (ht : Trimmed t) (hne : t ≠ []) : (ofText t).Legible := by
  cases h : ofText t with
  | compare l op r =>
    obtain ⟨before, after, hd, hn, rfl, rfl, hl, hr⟩ := ofText_eq_compare_iff.mp h
    obtain ⟨hb, hi, -⟩ := before_of_divideFrom? hd
    refine ⟨⟨trimmed_trim _, hl⟩, ⟨trimmed_trim _, hr⟩, ⟨?_, ?_⟩, ?_⟩
    · exact divideFrom?_trim_eq_none_iff.mpr hb
    · rw [insideAfter_trim]
      exact hi
    · exact divideFrom?_trim_eq_none_iff.mpr hn
  | invalid s =>
    obtain rfl := eq_invalid_of_ofText h
    exact ⟨⟨ht, hne⟩, h⟩

theorem ofText_compare {l r : Text} {op : Operator} (h : (compare l op r).Legible) :
    ofText (l ++ ' ' :: (op.spelling ++ ' ' :: r)) = .compare l op r := by
  obtain ⟨⟨hl, hln⟩, ⟨hr, hrn⟩, ⟨hd, hi⟩, hn⟩ := h
  have hspace : Blank [' '] := by simp [Blank, isBlank]
  have hbefore : divideFrom? false (l ++ [' ']) = none :=
    divideFrom?_append_eq_none_iff.mpr ⟨hd, divideFrom?_of_blank hspace _⟩
  have hinside : insideAfter false (l ++ [' ']) = false := by
    rw [insideAfter_append, insideAfter_of_blank hspace, hi]
  have hop : Operator.leading? (op.spelling ++ ' ' :: r) = some (op, ' ' :: r) := by
    cases op <;> rfl
  have hdivide := divideFrom?_append_operator hbefore hinside hop
  rw [List.append_assoc] at hdivide
  have hafter : divideFrom? false ([' '] ++ r) = none :=
    divideFrom?_append_eq_none_iff.mpr ⟨divideFrom?_of_blank hspace _, hn⟩
  exact ofText_eq_compare_iff.mpr
    ⟨_, _, hdivide, hafter, (trim_append_space hl).symm, (trim_cons_space hr).symm, hln, hrn⟩

theorem ne_equal_of_divide? {c : Char} {t : Text} (h : divide? (c :: t) = none) :
    c ≠ '=' := by
  rintro rfl
  rcases (divideFrom?_cons_eq_none_iff.mp h).1 with h | h | h
  · cases h
  · cases h
  · exact h .equal rfl

end Condition

theorem Keyword.trimmed_spelling (k : Keyword) : Trimmed k.spelling := by
  cases k <;> simp [Trimmed, spelling, isBlank]

namespace Statement

/-- The line on which the statement is written; what is not recognized leaves the line empty. -/
def render : Statement → Text
  | assign name value => name ++ ' ' :: '=' :: ' ' :: value
  | print (.literal text) => Keyword.print.spelling ++ '(' :: (inQuotes text ++ [')'])
  | print (.token text) => Keyword.print.spelling ++ '(' :: (text ++ [')'])
  | ifThen condition =>
    Keyword.if_.spelling ++ (condition.render ++ ' ' :: Keyword.then_.spelling)
  | caseOf name => Keyword.revelationCase.spelling ++ ' ' :: ' ' :: name
  | define name => Keyword.define.spelling ++ ' ' :: (name ++ ' ' :: Keyword.asFunction.spelling)
  | call name => Keyword.call.spelling ++ ' ' :: name
  | when label => Keyword.when.spelling ++ ' ' :: (inQuotes label ++ ' ' :: Keyword.then_.spelling)
  | otherwise => Keyword.else_.spelling
  | close b => b.closer.spelling
  | unrecognized => []

/-- What a reader can have put into the fields of a statement. -/
def Legible : Statement → Prop
  | assign name value => isName name = true ∧ Trimmed value
  | print (.literal text) => text ≠ []
  | print (.token text) => (Trimmed text ∧ text ≠ []) ∧ ∀ u, text = inQuotes u → u = []
  | ifThen condition => condition.Legible
  | caseOf name => Trimmed name ∧ name ≠ []
  | define name | call name => isName name = true
  | when _ | otherwise | close _ | unrecognized => True

/-! ### What is read is legible -/

theorem legible_of_readPrint {t : Text} {s : Statement} (h : readPrint t = .ok s) : s.Legible := by
  unfold readPrint at h
  split at h
  · cases h
  · split at h
    · cases h
    · dsimp only at h
      split at h
      · cases h
      · next hne =>
        split at h
        · cases h
          exact List.cons_ne_nil _ _
        · next hq =>
          cases h
          refine ⟨⟨trimmed_trim _, by simpa using hne⟩, ?_⟩
          intro u hu
          cases u with
          | nil => rfl
          | cons c u => exact absurd (hu ▸ unquote?_inQuotes (c :: u)) (hq c u)

theorem legible_of_readAfter {k : Keyword} {t : Text} {s : Statement} (h : readAfter k t = .ok s)
    (ht : Trimmed t) : s.Legible := by
  cases ledBy_of_readAfter h with
  | print e => exact legible_of_readPrint h
  | ifThen c =>
    rw [readAfter, readIf] at h
    split at h
    · cases h
    · dsimp only at h
      split at h
      · cases h
      · next hne =>
        cases h
        exact Condition.legible_ofText (trimmed_trim _) (by simpa using hne)
  | caseOf name =>
    rw [readAfter, readCase] at h
    split at h
    · cases h
    · next hne =>
      cases h
      exact ⟨ht, by simpa using hne⟩
  | define name =>
    rw [readAfter, readDefine] at h
    split at h
    · cases h
    · split at h
      · next hn =>
        cases h
        exact hn
      · cases h
  | call name =>
    rw [readAfter, readCall] at h
    split at h
    · next hn =>
      cases h
      exact hn
    · cases h
  | _ => trivial

theorem legible_of_read {t : Text} {s : Statement} (h : read t = .ok s) : s.Legible := by
  unfold read at h
  split at h
  · next ha =>
    cases h
    obtain ⟨v, -, hn, rfl⟩ := Spelling.assignment?_eq_some_iff.mp ha
    exact ⟨hn, trimmed_trim v⟩
  · split at h
    · exact legible_of_readAfter h (trimmed_trim _)
    · cases h
      trivial

/-! ### What is legible is read back -/

theorem read_ifThen {c : Condition} (h : c.Legible) :
    read (ifThen c).render = .ok (.ifThen c) := by
  cases c with
  | compare l op r =>
    obtain ⟨t, ht⟩ : ∃ t, t = l ++ ' ' :: (op.spelling ++ ' ' :: r) := ⟨_, rfl⟩
    have hc := Condition.ofText_compare h
    obtain ⟨⟨hl, hln⟩, ⟨hr, hrn⟩, ⟨hd, -⟩, -⟩ := h
    have htn : t ≠ [] := ht ▸ List.append_ne_nil_of_left_ne_nil hln _
    have htt : Trimmed t := by
      have := trimmed_append hl hr hln hrn (' ' :: (op.spelling ++ [' ']))
      simpa [ht] using this
    have ha : assignment? (ifThen (.compare l op r)).render = none := by
      obtain ⟨c, l, rfl⟩ := List.exists_cons_of_ne_nil hln
      exact Spelling.assignment?_of_word (w := Keyword.if_.spelling) (by decide)
        (Condition.ne_equal_of_divide? hd) _
    have hr : read (ifThen (.compare l op r)).render =
        readAfter .if_ (trim (' ' :: (t ++ ' ' :: Keyword.then_.spelling))) := by
      rw [ht]
      exact Spelling.read_of_word ha rfl
    rw [hr, trim_cons_space (Spelling.trimmed_then htt htn), readAfter,
      Spelling.readIf_then htt htn, ht, hc]
  | invalid t =>
    obtain ⟨⟨ht, hne⟩, hc⟩ := h
    have hr : read (ifThen (.invalid t)).render =
        readAfter .if_ (trim (' ' :: ' ' :: (t ++ ' ' :: Keyword.then_.spelling))) :=
      Spelling.read_of_word rfl rfl
    have htrim : trim (' ' :: ' ' :: (t ++ ' ' :: Keyword.then_.spelling)) =
        t ++ ' ' :: Keyword.then_.spelling := trim_eq_self (Spelling.trimmed_then ht hne)
    rw [hr, htrim, readAfter, Spelling.readIf_then ht hne, hc]

theorem assignment?_of_name {w n : Text} (hw : isName w = true) (hn : isName n = true) (r : Text) :
    assignment? (w ++ ' ' :: (n ++ r)) = none := by
  obtain ⟨c, n, rfl, hc⟩ := exists_cons_of_isName hn
  exact Spelling.assignment?_of_word hw (ne_of_isNameChar hc (by decide)) (n ++ r)

theorem read_define {n : Text} (hn : isName n = true) :
    read (define n).render = .ok (.define n) := by
  have ht := trimmed_of_isName hn
  have htt : Trimmed (n ++ ' ' :: Keyword.asFunction.spelling) :=
    trimmed_append ht Keyword.asFunction.trimmed_spelling (isName_iff.mp hn).1
      (Keyword.spelling_ne_nil _) [' ']
  have hs : dropSuffix? Keyword.asFunction.spelling (n ++ ' ' :: Keyword.asFunction.spelling) =
      some (n ++ [' ']) := dropSuffix?_eq_some_iff.mpr (by simp)
  have hr : read (define n).render =
      readAfter .define (trim (' ' :: (n ++ ' ' :: Keyword.asFunction.spelling))) :=
    Spelling.read_of_word (assignment?_of_name (w := Keyword.define.spelling) (by decide) hn _) rfl
  rw [hr, trim_cons_space htt, readAfter, readDefine, hs]
  dsimp only
  rw [trim_append_space ht, if_pos hn]

theorem read_call {n : Text} (hn : isName n = true) : read (call n).render = .ok (.call n) := by
  have ha := assignment?_of_name (w := Keyword.call.spelling) (by decide) hn []
  rw [List.append_nil] at ha
  have hr : read (call n).render = readAfter .call (trim (' ' :: n)) :=
    Spelling.read_of_word ha rfl
  rw [hr, trim_cons_space (trimmed_of_isName hn), readAfter, readCall, if_pos hn]

/-- A legible statement is read from the line on which it is written. -/
theorem read_render_of_legible {s : Statement} (h : s.Legible) : read s.render = .ok s := by
  cases s with
  | assign name value =>
    have ha : assignment? (assign name value).render = some (name, value) :=
      Spelling.assignment?_eq_some_iff.mpr ⟨_, rfl, h.1, (trim_cons_space h.2).symm⟩
    rw [read, ha]
  | print e =>
    cases e with
    | literal t =>
      obtain ⟨c, u, rfl⟩ := List.exists_cons_of_ne_nil h
      refine (Spelling.read_printed (trimmed_inQuotes _) (List.cons_ne_nil _ _)).trans ?_
      rw [unquote?_inQuotes]
    | token t =>
      obtain ⟨⟨ht, hne⟩, hq⟩ := h
      refine (Spelling.read_printed ht hne).trans ?_
      split
      · next c u hu => cases hq _ (unquote?_eq_some_iff.mp hu)
      · rfl
  | ifThen c => exact read_ifThen h
  | caseOf name =>
    obtain ⟨ht, hne⟩ := h
    have hr : read (caseOf name).render = readAfter .revelationCase (trim (' ' :: ' ' :: name)) :=
      Spelling.read_of_word rfl rfl
    have hn : trim (' ' :: ' ' :: name) = name := trim_eq_self ht
    rw [hr, hn, readAfter, readCase, if_neg (by simpa using hne)]
  | define name => exact read_define h
  | call name => exact read_call h
  | when label => exact Spelling.read_when label
  | otherwise => rfl
  | close b => cases b <;> rfl
  | unrecognized => rfl

theorem trimmed_after (k : Keyword) {y : Text} (hy : Trimmed y) (hne : y ≠ []) (t : Text) :
    Trimmed (k.spelling ++ (t ++ y)) :=
  trimmed_append k.trimmed_spelling hy (Keyword.spelling_ne_nil k) hne t

theorem trimmed_render {s : Statement} (h : s.Legible) (hs : ∀ name, s ≠ .assign name []) :
    Trimmed s.render := by
  have hbracket : Trimmed [')'] := by simp [Trimmed, isBlank]
  have hends (k k' : Keyword) (t : Text) :
      Trimmed (k.spelling ++ (t ++ ' ' :: k'.spelling)) := by
    simpa using trimmed_after k k'.trimmed_spelling (Keyword.spelling_ne_nil k') (t ++ [' '])
  cases s with
  | assign name value =>
    have hne : value ≠ [] := by
      rintro rfl
      exact hs name rfl
    exact trimmed_append (trimmed_of_isName h.1) h.2 (isName_iff.mp h.1).1 hne [' ', '=', ' ']
  | print e =>
    cases e with
    | literal t => exact trimmed_after .print hbracket (List.cons_ne_nil _ _) ('(' :: inQuotes t)
    | token t => exact trimmed_after .print hbracket (List.cons_ne_nil _ _) ('(' :: t)
  | ifThen c => exact hends .if_ .then_ c.render
  | caseOf name => exact trimmed_after .revelationCase h.1 h.2 [' ', ' ']
  | define name => exact hends .define .asFunction (' ' :: name)
  | call name => exact trimmed_after .call (trimmed_of_isName h) (isName_iff.mp h).1 [' ']
  | when label => exact hends .when .then_ (' ' :: inQuotes label)
  | otherwise => exact Keyword.trimmed_spelling .else_
  | close b => exact b.closer.trimmed_spelling
  | unrecognized => simp [render, Trimmed]

theorem read_trim_render_of_legible {s : Statement} (h : s.Legible) :
    read (trim s.render) = .ok s := by
  by_cases hs : ∃ name, s = .assign name []
  · obtain ⟨name, rfl⟩ := hs
    have hn : isName name = true := h.1
    have hsign : Trimmed ['='] := by simp [Trimmed, isBlank]
    have ht : trim (assign name []).render = name ++ [' ', '='] := by
      have := trim_append_space (trimmed_append (trimmed_of_isName hn) hsign (isName_iff.mp hn).1
        (List.cons_ne_nil _ _) [' '])
      simpa [render] using this
    have ha : assignment? (name ++ [' ', '=']) = some (name, []) :=
      Spelling.assignment?_eq_some_iff.mpr ⟨[], rfl, hn, rfl⟩
    rw [ht, read, ha]
  · rw [trim_eq_self (trimmed_render h fun name hn => hs ⟨name, hn⟩)]
    exact read_render_of_legible h

/--
Writing a statement that was read, and reading it again, changes nothing: the line on which the
statement is written is read as that same statement, whatever number it is given.
-/
theorem written_reads_back {t : Text} {s : Statement} (h : read t = .ok s) :
    read s.render = .ok s ∧
      ∀ n, Command.ofLine (.ofText n s.render) = .ok ⟨.ofText n s.render, s⟩ := by
  have hs := legible_of_read h
  refine ⟨read_render_of_legible hs, fun n => ?_⟩
  exact Command.ofLine_eq_ok_iff.mpr ⟨rfl, read_trim_render_of_legible hs⟩

/-- A tab keeps a sign from making an assignment; the two spaces that are written keep it too. -/
theorem selection_by_sign_reads_back :
    read "REVELATION_CASE\t= 5".toList = .ok (.caseOf "= 5".toList) ∧
      (caseOf "= 5".toList).render = "REVELATION_CASE  = 5".toList ∧
      read "REVELATION_CASE  = 5".toList = .ok (.caseOf "= 5".toList) := by
  have hread : read "REVELATION_CASE\t= 5".toList = .ok (.caseOf "= 5".toList) := by
    decide +kernel
  exact ⟨hread, by decide +kernel, (written_reads_back hread).1⟩

end Statement

end LineScript
