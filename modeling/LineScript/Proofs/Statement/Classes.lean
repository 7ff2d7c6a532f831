import LineScript.Proofs.Reading
import LineScript.Proofs.Spelling

/-! # Classes of lines

A line is an assignment, or it is led by a keyword, or it is not recognized. What it does to the
blocks around it is seen from its beginning alone, and that agrees with the statement it is read as;
only a line that is led by a keyword can be malformed.
-/

namespace LineScript

open Text

/-- A name, a space and a sign begin the text. -/
def Text.IsAssignment (t : Text) : Prop := ∃ n v, isName n = true ∧ t = n ++ ' ' :: '=' :: v

namespace Keyword

/--
The word begins the text and is set off: nothing follows it, or a blank, or, if the word is `PRINT`,
a left parenthesis.
-/
def Leads (k : Keyword) (t : Text) : Prop :=
  ∃ r, t = k.spelling ++ r ∧ ∀ c ∈ r.head?, isBlank c = true ∨ k = print ∧ c = '('

theorem isSetOff_iff {k : Keyword} {t : Text} :
    k.isSetOff t = true ↔ ∀ c ∈ t.head?, isBlank c = true ∨ k = print ∧ c = '(' := by
  cases t <;> simp [isSetOff]

theorem after?_eq_none_iff {k : Keyword} {t : Text} : k.after? t = none ↔ ¬ k.Leads t := by
  rw [Option.eq_none_iff_forall_ne_some]
  simp only [ne_eq, after?_eq_some_iff, isSetOff_iff, Leads, not_exists]

/-- The first of the words, in their order, that leads the text, and the text after it. -/
def firstAmong? (words : List Keyword) (t : Text) : Option (Keyword × Text) :=
  words.findSome? fun k => (k.after? t).map (k, ·)

theorem leading?_eq_firstAmong? (t : Text) : leading? t = firstAmong? leading t := rfl

section Among

variable {words : List Keyword} {k : Keyword} {t r : Text}

theorem firstAmong?_eq_none_iff : firstAmong? words t = none ↔ ∀ k ∈ words, ¬ k.Leads t := by
  simp [firstAmong?, after?_eq_none_iff]

theorem of_firstAmong?_eq_some (h : firstAmong? words t = some (k, r)) :
    k ∈ words ∧ t = k.spelling ++ r ∧ k.isSetOff r = true := by
  obtain ⟨k', hm, h⟩ := List.exists_of_findSome?_eq_some h
  obtain ⟨r', hr, he⟩ := Option.map_eq_some_iff.mp h
  cases he
  exact ⟨hm, after?_eq_some_iff.mp hr⟩

end Among

theorem leading?_eq_none_iff {t : Text} : leading? t = none ↔ ∀ k ∈ leading, ¬ k.Leads t := by
  rw [leading?_eq_firstAmong?, firstAmong?_eq_none_iff]

theorem mem_leading_of_leading? {k : Keyword} {t r : Text} (h : leading? t = some (k, r)) :
    k ∈ leading := by
  rw [leading?_eq_firstAmong?] at h
  exact (of_firstAmong?_eq_some h).1

end Keyword

namespace Statement

theorem assignment?_eq_none_iff {t : Text} : assignment? t = none ↔ ¬ t.IsAssignment := by
  rw [Option.eq_none_iff_forall_ne_some]
  constructor
  · rintro h ⟨n, v, hn, rfl⟩
    exact h _ (Spelling.assignment?_eq_some_iff.mpr ⟨v, rfl, hn, rfl⟩)
  · rintro h ⟨n, value⟩ ha
    obtain ⟨v, rfl, hn, -⟩ := Spelling.assignment?_eq_some_iff.mp ha
    exact h ⟨n, v, hn, rfl⟩

/-- A line is not recognized exactly if it is no assignment and no keyword leads it. -/
theorem read_eq_unrecognized_iff {t : Text} :
    read t = .ok .unrecognized ↔ ¬ t.IsAssignment ∧ ∀ k ∈ Keyword.leading, ¬ k.Leads t := by
  rw [← assignment?_eq_none_iff, ← Keyword.leading?_eq_none_iff]
  unfold read
  cases assignment? t with
  | some a => simp
  | none =>
    cases hl : Keyword.leading? t with
    | none => simp
    | some w =>
      obtain ⟨k, r⟩ := w
      simp only [reduceCtorEq, and_false, iff_false]
      intro h
      have hk := Keyword.mem_leading_of_leading? hl
      cases ledBy_of_readAfter h <;> revert hk <;> decide

theorem led_of_read_eq_error {t : Text} {f : Fault} (h : read t = .error f) :
    ¬ t.IsAssignment ∧ ∃ k ∈ Keyword.leading, k.Leads t := by
  have ha : assignment? t = none := by
    rw [read] at h
    split at h
    · cases h
    · assumption
  refine ⟨assignment?_eq_none_iff.mp ha, ?_⟩
  by_contra hn
  have hu : ∀ k ∈ Keyword.leading, ¬ k.Leads t := fun k hk hl => hn ⟨k, hk, hl⟩
  cases h.symm.trans (read_eq_unrecognized_iff.mpr ⟨assignment?_eq_none_iff.mp ha, hu⟩)

section Edge

variable {s : Statement} {b : Block}

theorem edge_eq_opens_iff : s.edge = some (.opens b) ↔ s.opens = some b := by
  cases s <;> simp [edge, opens, closes]

theorem edge_eq_closes_iff : s.edge = some (.closes b) ↔ s.closes = some b := by
  cases s <;> simp [edge, opens, closes]

theorem edge_eq_none_iff : s.edge = none ↔ s.opens = none ∧ s.closes = none := by
  cases s <;> simp [edge, opens, closes]

end Edge

end Statement

/--
A line that is a statement has the edge that the statement has. A line that is none gives an error
which carries the line, trimmed, and its number, and says something; such a line is no assignment,
and a keyword leads it. A line is not recognized exactly if neither is the case.
-/
theorem Line.classes_agree (n : Nat) (t : Text) :
    (∀ s, Command.ofLine (.ofText n t) = .ok ⟨.ofText n t, s⟩ →
      (∀ b, (ofText n t).edge? = some (.opens b) ↔ s.opens = some b) ∧
      (∀ b, (ofText n t).edge? = some (.closes b) ↔ s.closes = some b) ∧
      ((ofText n t).edge? = none ↔ s.opens = none ∧ s.closes = none)) ∧
    (∀ e, Command.ofLine (.ofText n t) = .error e →
      e.kind = .malformed ∧ e.line = some ⟨n, trim t⟩ ∧ e.detail ≠ [] ∧
      ¬ (trim t).IsAssignment ∧ ∃ k ∈ Keyword.leading, k.Leads (trim t)) ∧
    (Command.ofLine (.ofText n t) = .ok ⟨.ofText n t, .unrecognized⟩ ↔
      ¬ (trim t).IsAssignment ∧ ∀ k ∈ Keyword.leading, ¬ k.Leads (trim t)) := by
  refine ⟨fun s hs => ?_, fun e he => ?_, ?_⟩
  · have hedge : (ofText n t).edge? = s.edge :=
      Statement.edge?_of_read (Command.ofLine_eq_ok_iff.mp hs).2
    rw [hedge]
    exact ⟨fun _ => Statement.edge_eq_opens_iff, fun _ => Statement.edge_eq_closes_iff,
      Statement.edge_eq_none_iff⟩
  · obtain ⟨f, hf, rfl⟩ := Command.ofLine_eq_error_iff.mp he
    exact ⟨rfl, rfl, f.message_ne_nil, Statement.led_of_read_eq_error hf⟩
  · rw [Command.ofLine_eq_ok_iff, ← Statement.read_eq_unrecognized_iff]
    exact and_iff_right rfl

/--
What assigns to a variable `IF` opens nothing, a definition without its last words is malformed
though it opens a function, and a longer word than `IF` is not recognized.
-/
theorem Line.classes_of_near_keywords :
    (Command.ofLine (.ofText 1 "IF = 1".toList) =
        .ok ⟨.ofText 1 "IF = 1".toList, .assign "IF".toList ['1']⟩ ∧
      (ofText 1 "IF = 1".toList).edge? = none) ∧
    (∃ e, Command.ofLine (.ofText 2 " DEFINE F ".toList) = .error e ∧
      e.line = some ⟨2, "DEFINE F".toList⟩ ∧ e.detail ≠ [] ∧
      (ofText 2 " DEFINE F ".toList).edge? = some (.opens .function)) ∧
    (Command.ofLine (.ofText 3 "IFFY".toList) = .ok ⟨.ofText 3 "IFFY".toList, .unrecognized⟩ ∧
      ∀ k ∈ Keyword.leading, ¬ k.Leads "IFFY".toList) := by
  refine ⟨?_, ?_, ?_⟩
  · have h : Command.ofLine (.ofText 1 "IF = 1".toList) =
        .ok ⟨.ofText 1 "IF = 1".toList, .assign "IF".toList ['1']⟩ := by decide +kernel
    exact ⟨h, ((classes_agree 1 _).1 _ h).2.2.mpr ⟨rfl, rfl⟩⟩
  · have h : ∃ e, Command.ofLine (.ofText 2 " DEFINE F ".toList) = .error e :=
      ⟨.ofFault ⟨2, "DEFINE F".toList⟩ .noAsFunction, by decide +kernel⟩
    obtain ⟨e, he⟩ := h
    obtain ⟨-, hl, hd, -⟩ := (classes_agree 2 _).2.1 e he
    exact ⟨e, he, hl.trans (by decide +kernel), hd, by decide +kernel⟩
  · have h : Command.ofLine (.ofText 3 "IFFY".toList) =
        .ok ⟨.ofText 3 "IFFY".toList, .unrecognized⟩ := by decide +kernel
    have ht : trim "IFFY".toList = "IFFY".toList := by decide +kernel
    exact ⟨h, ht ▸ ((classes_agree 3 _).2.2.mp h).2⟩

end LineScript
