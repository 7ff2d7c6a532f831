import Mathlib.Data.List.Basic
import LineScript.Line
import LineScript.Proofs.Text.Trimming
import LineScript.Value.Basic

/-! # Lines with quoted text

A text in quotes can be assigned, compared with, and selected by. Each of these lines is read as the
statement it spells, and the quotes are taken off in one way only, whatever stands between them: the
text may hold operators, keywords, brackets and blanks, and may be empty.
-/

namespace LineScript

namespace Text

def inQuotes (t : Text) : Text := '"' :: (t ++ ['"'])

@[simp] theorem unquote?_inQuotes (t : Text) : unquote? (inQuotes t) = some t :=
  unquote?_eq_some_iff.mpr rfl

theorem trimmed_append {x y : Text} (hx : Trimmed x) (hy : Trimmed y) (hxn : x ≠ []) (hyn : y ≠ [])
    (t : Text) : Trimmed (x ++ (t ++ y)) := by
  constructor
  · rw [List.head?_append_of_ne_nil x hxn]
    exact hx.1
  · rw [← List.append_assoc, List.getLast?_append_of_ne_nil _ hyn]
    exact hy.2

theorem trimmed_between {a b : Char} (ha : isBlank a = false) (hb : isBlank b = false) (t : Text) :
    Trimmed (a :: (t ++ [b])) := by
  have hs {c : Char} (hc : isBlank c = false) : Trimmed [c] := by simpa [Trimmed] using hc
  exact trimmed_append (hs ha) (hs hb) (List.cons_ne_nil _ _) (List.cons_ne_nil _ _) t

theorem trimmed_inQuotes (t : Text) : Trimmed (inQuotes t) :=
  trimmed_between (by decide) (by decide) t

theorem trim_cons_space {t : Text} (h : Trimmed t) : trim (' ' :: t) = t := trim_eq_self h

theorem trim_append_space {t : Text} (h : Trimmed t) : trim (t ++ [' ']) = t := by
  have hb : Blank [' '] := by simp [Blank, isBlank]
  rw [trim_append hb, trim_eq_self h]

theorem isBlank_of_isNameChar {c : Char} (h : isNameChar c = true) : isBlank c = false := by
  delta isNameChar Char.isAlphanum Char.isAlpha Char.isUpper Char.isLower Char.isDigit at h
  simp only [Bool.or_eq_true, Bool.and_eq_true, decide_eq_true_eq, beq_iff_eq,
    UInt32.le_iff_toNat_le, ge_iff_le] at h
  change (((65 ≤ c.toNat ∧ c.toNat ≤ 90) ∨ (97 ≤ c.toNat ∧ c.toNat ≤ 122)) ∨
    (48 ≤ c.toNat ∧ c.toNat ≤ 57)) ∨ c = '_' at h
  rcases h with h | rfl
  · simp only [isBlank, Bool.or_eq_false_iff, Bool.and_eq_false_iff, decide_eq_false_iff_not,
      beq_eq_false_iff_ne]
    omega
  · decide

theorem ne_of_isNameChar {c d : Char} (h : isNameChar c = true) (hd : isNameChar d = false) :
    c ≠ d := by
  rintro rfl
  cases h.symm.trans hd

section Name

variable {n : Text} (h : isName n = true)

include h

theorem exists_cons_of_isName : ∃ c r, n = c :: r ∧ isNameChar c = true := by
  obtain ⟨hne, hc⟩ := isName_iff.mp h
  obtain ⟨c, r, rfl⟩ := List.exists_cons_of_ne_nil hne
  exact ⟨c, r, rfl, hc c List.mem_cons_self⟩

theorem trimmed_of_isName : Trimmed n := by
  have hc := (isName_iff.mp h).2
  constructor
  · exact fun c hm => isBlank_of_isNameChar (hc c (List.mem_of_mem_head? hm))
  · exact fun c hm => isBlank_of_isNameChar (hc c (List.mem_of_mem_getLast? hm))

theorem unquote?_of_isName : unquote? n = none := by
  obtain ⟨c, r, rfl, hc⟩ := exists_cons_of_isName h
  rw [Option.eq_none_iff_forall_ne_some]
  intro s hs
  have he := unquote?_eq_some_iff.mp hs
  exact ne_of_isNameChar hc (by decide) (List.cons.inj he).1

theorem notMem_of_isName {c : Char} (hc : isNameChar c = false) : c ∉ n :=
  fun hm => ne_of_isNameChar ((isName_iff.mp h).2 c hm) hc rfl

theorem takeWhile_of_isName {c : Char} (hc : isNameChar c = false) (r : Text) :
    (n ++ c :: r).takeWhile isNameChar = n ∧ (n ++ c :: r).dropWhile isNameChar = c :: r := by
  have hn := (isName_iff.mp h).2
  rw [List.takeWhile_append_of_pos hn, List.dropWhile_append_of_pos hn]
  simp [hc]

end Name

theorem lines_eq_singleton {t : Text} (hne : t ≠ []) (h : '\n' ∉ t) : lines t = [t] := by
  rcases List.eq_nil_or_concat t with rfl | ⟨u, c, rfl⟩
  · exact absurd rfl hne
  · rw [List.concat_eq_append] at h ⊢
    simp only [List.mem_append, List.mem_singleton, not_or] at h
    have hs : lines [c] = [[c]] := by simp [consLine, Ne.symm h.2]
    exact lines_append_of_notMem h.1 hs

end Text

theorem Line.split_of_trimmed {t : Text} (ht : Text.Trimmed t) (hne : t ≠ []) (hn : '\n' ∉ t) :
    split t = [⟨1, t⟩] := by
  simp [split, Text.lines_eq_singleton hne hn, ofText, Text.trim_eq_self ht, isEmpty, hne]

open Text

theorem Value.read_inQuotes (t : Text) : Value.read (inQuotes t) = .string t := by
  unfold Value.read
  rw [trim_eq_self (trimmed_inQuotes t)]
  simp

theorem Operator.leading?_of_isNameChar {c : Char} (h : isNameChar c = true) (t : Text) :
    leading? (c :: t) = none := by
  have hne (op : Operator) : Text.dropPrefix? op.spelling (c :: t) = none := by
    cases op <;> exact if_neg (ne_of_isNameChar h (by decide)).symm
  simp [leading?, hne]

namespace Condition

theorem divide?_of_isName {n : Text} (h : ∀ c ∈ n, isNameChar c = true) (r : Text) :
    divide? (n ++ ' ' :: '=' :: r) = some ⟨n ++ [' '], .equal, r⟩ := by
  unfold divide?
  induction n with
  | nil => rfl
  | cons c n ih =>
    obtain ⟨hc, hn⟩ := List.forall_mem_cons.mp h
    have hq : c ≠ '"' := ne_of_isNameChar hc (by decide)
    rw [List.cons_append, divideFrom?, if_neg hq, if_neg Bool.false_ne_true,
      Operator.leading?_of_isNameChar hc, ih hn]
    rfl

theorem divideFrom?_true {u : Text} (h : '"' ∉ u) : divideFrom? true (u ++ ['"']) = none := by
  induction u with
  | nil => rfl
  | cons c u ih =>
    obtain ⟨hc, hu⟩ := not_or.mp (List.mem_cons.not.mp h)
    rw [List.cons_append, divideFrom?, if_neg (Ne.symm hc), if_pos rfl, ih hu]
    rfl

theorem divide?_inQuotes {u : Text} (h : '"' ∉ u) : divide? (inQuotes u) = none := by
  rw [divide?, inQuotes, divideFrom?, if_pos rfl]
  simp [divideFrom?_true h]

theorem ofText_equal {n u : Text} (hn : isName n = true) (hu : '"' ∉ u) :
    ofText (n ++ ' ' :: '=' :: ' ' :: inQuotes u) = .compare n .equal (inQuotes u) := by
  have hd := divide?_of_isName (isName_iff.mp hn).2 (' ' :: inQuotes u)
  have hl := trim_append_space (trimmed_of_isName hn)
  have hr := trim_cons_space (trimmed_inQuotes u)
  have hne := (isName_iff.mp hn).1
  unfold ofText
  rw [hd]
  simp only [hl, hr, divide?_inQuotes hu]
  simp [hne, inQuotes]

end Condition

/-! ### The lines -/

namespace Spelling

/-- The line `name = "value"`. -/
def assign (name value : Text) : Text := name ++ ' ' :: '=' :: ' ' :: inQuotes value

/-- The line `PRINT(name)`. -/
def print (name : Text) : Text := Keyword.print.spelling ++ '(' :: (name ++ [')'])

/-- The line `IF name = "value" THEN`. -/
def ifEqual (name value : Text) : Text :=
  Keyword.if_.spelling ++
    ' ' :: (name ++ ' ' :: '=' :: ' ' :: inQuotes value ++ ' ' :: Keyword.then_.spelling)

/-- The line `REVELATION_CASE name`. -/
def caseOf (name : Text) : Text := Keyword.revelationCase.spelling ++ ' ' :: name

/-- The line `WHEN "label" THEN`. -/
def when (label : Text) : Text :=
  Keyword.when.spelling ++ ' ' :: (inQuotes label ++ ' ' :: Keyword.then_.spelling)

variable {n u : Text}

theorem split_assign (hn : isName n = true) (hu : '\n' ∉ u) :
    Line.split (assign n u) = [⟨1, assign n u⟩] := by
  have hne := (isName_iff.mp hn).1
  refine Line.split_of_trimmed ?_ (List.append_ne_nil_of_left_ne_nil hne _) ?_
  · exact trimmed_append (trimmed_of_isName hn) (trimmed_inQuotes u) hne (List.cons_ne_nil _ _)
      [' ', '=', ' ']
  · simp [assign, inQuotes, notMem_of_isName hn (c := '\n') (by decide), hu]

theorem split_print (hn : isName n = true) : Line.split (print n) = [⟨1, print n⟩] := by
  refine Line.split_of_trimmed ?_ (List.cons_ne_nil _ _) ?_
  · exact trimmed_between (by decide) (by decide) ('R' :: 'I' :: 'N' :: 'T' :: '(' :: n)
  · simp [print, Keyword.spelling, notMem_of_isName hn (c := '\n') (by decide)]

/-- An assignment is a name, a space, a sign and the text of the value. -/
theorem assignment?_eq_some_iff {t name value : Text} :
    Statement.assignment? t = some (name, value) ↔
      ∃ v, t = name ++ ' ' :: '=' :: v ∧ isName name = true ∧ value = trim v := by
  unfold Statement.assignment?
  constructor
  · intro h
    split at h
    · next c n v hn hv =>
      cases h
      refine ⟨v, ?_, isName_iff.mpr ⟨List.cons_ne_nil _ _, ?_⟩, rfl⟩
      · rw [← hn, ← hv, List.takeWhile_append_dropWhile]
      · rw [← hn]
        exact List.all_eq_true.mp List.all_takeWhile
    · cases h
  · rintro ⟨v, rfl, hn, rfl⟩
    obtain ⟨ht, hd⟩ := takeWhile_of_isName hn (c := ' ') (by decide) ('=' :: v)
    obtain ⟨c, r, rfl, -⟩ := exists_cons_of_isName hn
    rw [ht, hd]
    rfl

theorem read_assign (hn : isName n = true) (t : Text) :
    Statement.read (assign n t) = .ok (.assign n (inQuotes t)) := by
  have ha : Statement.assignment? (assign n t) = some (n, inQuotes t) :=
    assignment?_eq_some_iff.mpr ⟨_, rfl, hn, (trim_cons_space (trimmed_inQuotes t)).symm⟩
  rw [Statement.read, ha]

theorem assignment?_of_word {w : Text} (hw : isName w = true) {c : Char} (hc : c ≠ '=') (r : Text) :
    Statement.assignment? (w ++ ' ' :: c :: r) = none := by
  obtain ⟨ht, hd⟩ := takeWhile_of_isName hw (c := ' ') (by decide) (c :: r)
  unfold Statement.assignment?
  rw [ht, hd]
  split
  · next h => simp_all
  · rfl

theorem read_of_word {k : Keyword} {t r : Text} (ha : Statement.assignment? t = none)
    (hl : Keyword.leading? t = some (k, r)) :
    Statement.read t = Statement.readAfter k (trim r) := by
  rw [Statement.read, ha, hl]

theorem read_printed {t : Text} (ht : Trimmed t) (hne : t ≠ []) :
    Statement.read (print t) = match unquote? t with
      | some (c :: u) => .ok (.print (.literal (c :: u)))
      | _ => .ok (.print (.token t)) := by
  have htt : Trimmed ('(' :: (t ++ [')'])) := trimmed_between (by decide) (by decide) t
  have hp : dropPrefix? ['('] ('(' :: (t ++ [')'])) = some (t ++ [')']) := rfl
  have hr : Statement.read (print t) = Statement.readAfter .print (trim ('(' :: (t ++ [')']))) :=
    read_of_word rfl rfl
  rw [hr, trim_eq_self htt, Statement.readAfter, Statement.readPrint, hp]
  dsimp only
  rw [dropSuffix?_append]
  dsimp only
  rw [trim_eq_self ht]
  exact if_neg (by simpa using hne)

theorem read_print (hn : isName n = true) : Statement.read (print n) = .ok (.print (.token n)) := by
  rw [read_printed (trimmed_of_isName hn) (isName_iff.mp hn).1, unquote?_of_isName hn]

theorem read_caseOf (hn : isName n = true) : Statement.read (caseOf n) = .ok (.caseOf n) := by
  obtain ⟨c, r, rfl, hc⟩ := exists_cons_of_isName hn
  have ha : Statement.assignment? (caseOf (c :: r)) = none :=
    assignment?_of_word (w := Keyword.revelationCase.spelling) (by decide)
      (ne_of_isNameChar hc (by decide)) r
  have hr : Statement.read (caseOf (c :: r)) =
      Statement.readAfter .revelationCase (trim (' ' :: c :: r)) :=
    read_of_word ha rfl
  rw [hr, trim_cons_space (trimmed_of_isName hn)]
  rfl

section Then

variable {t : Text}

theorem trimmed_then (ht : Trimmed t) (hne : t ≠ []) :
    Trimmed (t ++ ' ' :: Keyword.then_.spelling) := by
  have hw : Trimmed Keyword.then_.spelling :=
    trimmed_between (by decide) (by decide) ['H', 'E']
  exact trimmed_append ht hw hne (List.cons_ne_nil _ _) [' ']

theorem dropSuffix?_then (t : Text) :
    dropSuffix? Keyword.then_.spelling (t ++ ' ' :: Keyword.then_.spelling) = some (t ++ [' ']) :=
  dropSuffix?_eq_some_iff.mpr (by simp [Keyword.spelling])

theorem readIf_then (ht : Trimmed t) (hne : t ≠ []) :
    Statement.readIf (t ++ ' ' :: Keyword.then_.spelling) = .ok (.ifThen (.ofText t)) := by
  have hb : endsBlank (t ++ [' ']) = true := by
    rw [endsBlank, List.getLast?_concat]
    rfl
  rw [Statement.readIf, dropSuffix?_then, Option.filter_some_pos hb]
  dsimp only
  rw [trim_append_space ht, if_neg (by simpa using hne)]

end Then

theorem read_ifEqual (hn : isName n = true) (hu : '"' ∉ u) :
    Statement.read (ifEqual n u) = .ok (.ifThen (.compare n .equal (inQuotes u))) := by
  obtain ⟨t, ht⟩ : ∃ t, t = n ++ ' ' :: '=' :: ' ' :: inQuotes u := ⟨_, rfl⟩
  have hne := (isName_iff.mp hn).1
  have htn : t ≠ [] := ht ▸ List.append_ne_nil_of_left_ne_nil hne _
  have htt : Trimmed t := ht ▸ trimmed_append (trimmed_of_isName hn) (trimmed_inQuotes u) hne
    (List.cons_ne_nil _ _) [' ', '=', ' ']
  have ha : Statement.assignment? (ifEqual n u) = none := by
    obtain ⟨c, r, rfl, hc⟩ := exists_cons_of_isName hn
    exact assignment?_of_word (w := Keyword.if_.spelling) (by decide)
      (ne_of_isNameChar hc (by decide)) _
  have hr : Statement.read (ifEqual n u) =
      Statement.readAfter .if_ (trim (' ' :: (t ++ ' ' :: Keyword.then_.spelling))) := by
    rw [ht]
    exact read_of_word ha rfl
  rw [hr, trim_cons_space (trimmed_then htt htn), Statement.readAfter, readIf_then htt htn, ht,
    Condition.ofText_equal hn hu]

theorem read_when (u : Text) : Statement.read (when u) = .ok (.when u) := by
  have hr : Statement.read (when u) =
      Statement.readAfter .when (trim (' ' :: (inQuotes u ++ ' ' :: Keyword.then_.spelling))) :=
    read_of_word rfl rfl
  rw [hr, trim_cons_space (trimmed_then (trimmed_inQuotes u) (List.cons_ne_nil _ _)),
    Statement.readAfter, Statement.readWhen, dropSuffix?_then]
  simp [trim_append_space (trimmed_inQuotes u)]

end Spelling

end LineScript
