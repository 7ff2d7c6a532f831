import Mathlib.Data.List.Basic
import LineScript.Proofs.Text.Trimming
import LineScript.Statement.Condition

/-! # Operators and quotes

Whether a character of a condition stands between quotes depends on the quotes before it alone, and
blanks do not matter to that. So a condition is divided at an operator exactly if that operator
stands outside quotes and no other does before it, and whether an operand holds one is the same with
the blanks around it and without.
-/

namespace LineScript

namespace Text

/-- Whether a text that starts `inside` quotes, or outside, ends inside; each quote changes that. -/
def insideAfter (inside : Bool) (t : Text) : Bool :=
  t.foldl (fun inside c => if c = '"' then !inside else inside) inside

@[simp] theorem insideAfter_nil (inside : Bool) : insideAfter inside [] = inside := rfl

@[simp] theorem insideAfter_cons (inside : Bool) (c : Char) (t : Text) :
    insideAfter inside (c :: t) = insideAfter (if c = '"' then !inside else inside) t := rfl

theorem insideAfter_append (inside : Bool) (a b : Text) :
    insideAfter inside (a ++ b) = insideAfter (insideAfter inside a) b := List.foldl_append ..

theorem ne_of_isBlank {c d : Char} (h : isBlank c = true) (hd : isBlank d = false) : c ≠ d := by
  rintro rfl
  cases h.symm.trans hd

theorem insideAfter_of_blank {t : Text} (h : Blank t) (inside : Bool) :
    insideAfter inside t = inside := by
  induction t with
  | nil => rfl
  | cons c t ih =>
    obtain ⟨hc, ht⟩ := List.forall_mem_cons.mp h
    rw [insideAfter_cons, if_neg (ne_of_isBlank hc (by decide)), ih ht]

theorem insideAfter_trim (inside : Bool) (t : Text) :
    insideAfter inside (trim t) = insideAfter inside t := by
  obtain ⟨a, b, ha, hb, ht⟩ := exists_blank_trim t
  conv_rhs => rw [ht]
  rw [insideAfter_append, insideAfter_append, insideAfter_of_blank ha, insideAfter_of_blank hb]

theorem dropPrefix?_eq_none_iff {p t : Text} : dropPrefix? p t = none ↔ ¬ p <+: t := by
  rw [Option.eq_none_iff_forall_ne_some]
  constructor
  · rintro h ⟨r, rfl⟩
    exact h r (dropPrefix?_append p r)
  · rintro h r hr
    exact h ⟨r, (dropPrefix?_eq_some_iff.mp hr).symm⟩

end Text

open Text

namespace Operator

theorem leading?_eq_none_iff {t : Text} :
    leading? t = none ↔ ∀ op : Operator, ¬ op.spelling <+: t := by
  unfold leading?
  rw [List.findSome?_eq_none_iff]
  simp [dropPrefix?_eq_none_iff, mem_priority]

theorem leading?_cons_eq_none_iff {c : Char} {t : Text} :
    leading? (c :: t) = none ↔ ∀ op : Operator, op.spelling.head? ≠ some c := by
  rw [leading?_eq_none_iff]
  constructor
  · intro h op hc
    have hsingle : [c] <+: c :: t := ⟨t, rfl⟩
    cases op with
    | greaterEqual | greater => cases hc; exact h .greater hsingle
    | lessEqual | less => cases hc; exact h .less hsingle
    | equal => cases hc; exact h .equal hsingle
  · rintro h op ⟨r, hr⟩
    apply h op
    rw [← List.head?_append_of_ne_nil _ (spelling_ne_nil op), hr]
    rfl

theorem leading?_of_isBlank {c : Char} (h : isBlank c = true) (t : Text) :
    leading? (c :: t) = none := by
  rw [leading?_cons_eq_none_iff]
  intro op hc
  cases op <;> cases hc <;> cases h

end Operator

namespace Condition

variable {inside : Bool} {c : Char} {t : Text}

theorem divideFrom?_cons_of_pass
    (h : c = '"' ∨ inside = true ∨ Operator.leading? (c :: t) = none) :
    divideFrom? inside (c :: t) =
      (divideFrom? (if c = '"' then !inside else inside) t).map (.cons c) := by
  rw [divideFrom?]
  by_cases hc : c = '"'
  · rw [if_pos hc, if_pos hc]
  · rw [if_neg hc, if_neg hc]
    cases inside with
    | true => rfl
    | false =>
      have ho := (h.resolve_left hc).resolve_left Bool.false_ne_true
      rw [if_neg Bool.false_ne_true, ho]

theorem divideFrom?_cons_of_stop (hc : c ≠ '"') {op : Operator} {rest : Text}
    (h : Operator.leading? (c :: t) = some (op, rest)) :
    divideFrom? false (c :: t) = some ⟨[], op, rest⟩ := by
  rw [divideFrom?, if_neg hc, if_neg Bool.false_ne_true, h]

theorem pass_or_stop (inside : Bool) (c : Char) (t : Text) :
    (c = '"' ∨ inside = true ∨ Operator.leading? (c :: t) = none) ∨
      c ≠ '"' ∧ inside = false ∧ ∃ op rest, Operator.leading? (c :: t) = some (op, rest) := by
  by_cases hc : c = '"'
  · exact .inl (.inl hc)
  · cases inside with
    | true => exact .inl (.inr (.inl rfl))
    | false =>
      cases ho : Operator.leading? (c :: t) with
      | none => exact .inl (.inr (.inr rfl))
      | some x => exact .inr ⟨hc, rfl, x.1, x.2, rfl⟩

theorem divideFrom?_cons_eq_none_iff :
    divideFrom? inside (c :: t) = none ↔
      (c = '"' ∨ inside = true ∨ ∀ op : Operator, op.spelling.head? ≠ some c) ∧
        divideFrom? (if c = '"' then !inside else inside) t = none := by
  rw [← Operator.leading?_cons_eq_none_iff (t := t)]
  rcases pass_or_stop inside c t with hp | ⟨hc, rfl, op, rest, ho⟩
  · simp [divideFrom?_cons_of_pass hp, hp]
  · simp [divideFrom?_cons_of_stop hc ho, hc, ho]

theorem divideFrom?_append_eq_none_iff {a b : Text} :
    divideFrom? inside (a ++ b) = none ↔
      divideFrom? inside a = none ∧ divideFrom? (insideAfter inside a) b = none := by
  induction a generalizing inside with
  | nil => simp [divideFrom?]
  | cons c a ih =>
    rw [List.cons_append, divideFrom?_cons_eq_none_iff, divideFrom?_cons_eq_none_iff, ih,
      insideAfter_cons, and_assoc]

theorem divideFrom?_of_blank (h : Blank t) (inside : Bool) : divideFrom? inside t = none := by
  induction t with
  | nil => rfl
  | cons c t ih =>
    obtain ⟨hc, ht⟩ := List.forall_mem_cons.mp h
    have ho : ∀ op : Operator, op.spelling.head? ≠ some c :=
      Operator.leading?_cons_eq_none_iff.mp (Operator.leading?_of_isBlank hc [])
    rw [divideFrom?_cons_eq_none_iff, if_neg (ne_of_isBlank hc (by decide))]
    exact ⟨.inr (.inr ho), ih ht⟩

theorem divideFrom?_trim_eq_none_iff :
    divideFrom? inside (trim t) = none ↔ divideFrom? inside t = none := by
  obtain ⟨a, b, ha, hb, ht⟩ := exists_blank_trim t
  conv_rhs => rw [ht]
  simp [divideFrom?_append_eq_none_iff, insideAfter_of_blank ha, divideFrom?_of_blank ha,
    divideFrom?_of_blank hb]

theorem before_of_divideFrom? {d : Division} (h : divideFrom? inside t = some d) :
    divideFrom? inside d.before = none ∧ insideAfter inside d.before = false ∧
      Operator.leading? (d.operator.spelling ++ d.after) = some (d.operator, d.after) := by
  induction t generalizing inside d with
  | nil => cases h
  | cons c t ih =>
    rcases pass_or_stop inside c t with hp | ⟨hc, rfl, op, rest, ho⟩
    · rw [divideFrom?_cons_of_pass hp] at h
      obtain ⟨d, hd, rfl⟩ := Option.map_eq_some_iff.mp h
      obtain ⟨hn, hi, hl⟩ := ih hd
      rw [Operator.leading?_cons_eq_none_iff] at hp
      exact ⟨divideFrom?_cons_eq_none_iff.mpr ⟨hp, hn⟩, hi, hl⟩
    · rw [divideFrom?_cons_of_stop hc ho] at h
      cases h
      exact ⟨rfl, rfl, Operator.append_of_leading? ho ▸ ho⟩

theorem divideFrom?_append_operator {before after : Text} {op : Operator}
    (hn : divideFrom? inside before = none) (hi : insideAfter inside before = false)
    (hl : Operator.leading? (op.spelling ++ after) = some (op, after)) :
    divideFrom? inside (before ++ (op.spelling ++ after)) = some ⟨before, op, after⟩ := by
  induction before generalizing inside with
  | nil =>
    cases hi
    have hq : op.spelling.head? ≠ some '"' := by cases op <;> decide
    obtain ⟨c, r, hr⟩ := List.exists_cons_of_ne_nil (Operator.spelling_ne_nil op)
    rw [hr] at hl hq ⊢
    exact divideFrom?_cons_of_stop (fun hc => hq (congrArg some hc)) hl
  | cons c before ih =>
    obtain ⟨hp, hn⟩ := divideFrom?_cons_eq_none_iff.mp hn
    rw [← Operator.leading?_cons_eq_none_iff (t := before ++ (op.spelling ++ after))] at hp
    rw [List.cons_append, divideFrom?_cons_of_pass hp, ih hn hi]
    rfl

/-- A condition is a comparison exactly if what follows its first operator holds no other. -/
theorem ofText_eq_compare_iff {l r : Text} {op : Operator} :
    ofText t = .compare l op r ↔ ∃ before after, divide? t = some ⟨before, op, after⟩ ∧
      divide? after = none ∧ l = trim before ∧ r = trim after ∧ l ≠ [] ∧ r ≠ [] := by
  unfold ofText
  cases hd : divide? t with
  | none => simp
  | some d =>
    obtain ⟨before, op', after⟩ := d
    have ht : divide? (trim after) = none ↔ divide? after = none := divideFrom?_trim_eq_none_iff
    dsimp only
    split
    · next hif =>
      simp only [Bool.or_eq_true, List.isEmpty_iff, Option.isSome_iff_ne_none, ne_eq, ht] at hif
      simp only [reduceCtorEq, false_iff]
      rintro ⟨_, _, he, hn, rfl, rfl, hl, hr⟩
      cases he
      rcases hif with (h | h) | h
      · exact hl h
      · exact hr h
      · exact h hn
    · next hif =>
      simp only [Bool.or_eq_true, List.isEmpty_iff, Option.isSome_iff_ne_none, ne_eq, ht, not_or,
        not_not] at hif
      obtain ⟨⟨hl, hr⟩, hn⟩ := hif
      constructor
      · intro h
        cases h
        exact ⟨before, after, rfl, hn, rfl, rfl, hl, hr⟩
      · rintro ⟨_, _, he, -, rfl, rfl, -, -⟩
        cases he
        rfl

theorem eq_invalid_of_ofText {s : Text} (h : ofText t = .invalid s) : s = t := by
  unfold ofText at h
  split at h
  · cases h
    rfl
  · dsimp only at h
    split at h
    · cases h
      rfl
    · cases h

end Condition

end LineScript
