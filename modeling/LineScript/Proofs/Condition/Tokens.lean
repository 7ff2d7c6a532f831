import LineScript.Proofs.Machine.Action
import LineScript.Proofs.Condition.Quotes

/-! # The tokens of a condition

Read from left to right, a condition is a sequence of characters and operators: outside quotes, the
longest operator that begins where the reading stands is one token. A condition is a comparison
exactly if one of its tokens is an operator and there is text on either side of it; every other
condition is invalid, and never holds.
-/

namespace LineScript

open Text

namespace Operator

def all : List Operator := [less, lessEqual, equal, greaterEqual, greater]

theorem mem_all (op : Operator) : op ∈ all := by cases op <;> decide

/-- The operator begins the text, and no longer one does. -/
def IsLongest (op : Operator) (t : Text) : Prop :=
  op.spelling <+: t ∧
    ∀ op' : Operator, op'.spelling <+: t → op'.spelling.length ≤ op.spelling.length

instance (op : Operator) (t : Text) : Decidable (op.IsLongest t) :=
  decidable_of_iff (op.spelling <+: t ∧
    ∀ op' ∈ all, op'.spelling <+: t → op'.spelling.length ≤ op.spelling.length)
    (by simp [IsLongest, mem_all])

def longest? (t : Text) : Option Operator := all.find? (IsLongest · t)

theorem spelling_injective {op op' : Operator} (h : op.spelling = op'.spelling) : op = op' := by
  cases op <;> cases op' <;> first | rfl | cases h

theorem IsLongest.unique {op op' : Operator} {t : Text} (h : op.IsLongest t)
    (h' : op'.IsLongest t) : op = op' := by
  have hp := List.prefix_of_prefix_length_le h.1 h'.1 (h'.2 op h.1)
  exact spelling_injective (hp.eq_of_length_le (h.2 op' h'.1))

theorem longest?_eq_some_iff {op : Operator} {t : Text} :
    longest? t = some op ↔ op.IsLongest t := by
  constructor
  · intro h
    simpa using List.find?_some h
  · intro h
    cases hf : longest? t with
    | none => simpa [h] using List.find?_eq_none.mp hf op (mem_all op)
    | some op' => exact congrArg some (IsLongest.unique (by simpa using List.find?_some hf) h)

theorem pairwise_priority :
    priority.Pairwise fun op op' => op'.spelling.length ≤ op.spelling.length := by decide

theorem isLongest_of_leading? {op : Operator} {t r : Text} (h : leading? t = some (op, r)) :
    op.IsLongest t := by
  refine ⟨⟨r, (append_of_leading? h).symm⟩, fun op' hp => ?_⟩
  have hm := mem_priority op'
  obtain ⟨ops, a, ops', hl, ha, hb⟩ := List.findSome?_eq_some_iff.mp h
  obtain ⟨r', -, hr⟩ := Option.map_eq_some_iff.mp ha
  cases hr
  have hs := pairwise_priority
  rw [hl] at hm hs
  rcases List.mem_append.mp hm with hm | hm
  · -- those that were tried before it do not begin the text
    have hn := hb op' hm
    rw [Option.map_eq_none_iff, dropPrefix?_eq_none_iff] at hn
    exact absurd hp hn
  · obtain ⟨-, hs, -⟩ := List.pairwise_append.mp hs
    rcases List.mem_cons.mp hm with rfl | hm
    · exact Nat.le_refl _
    · exact (List.pairwise_cons.mp hs).1 op' hm

theorem longest?_eq_leading? (t : Text) : longest? t = (leading? t).map Prod.fst := by
  cases h : leading? t with
  | none =>
    rw [Option.map_none, Option.eq_none_iff_forall_ne_some]
    exact fun op hop => leading?_eq_none_iff.mp h op (longest?_eq_some_iff.mp hop).1
  | some x => exact longest?_eq_some_iff.mpr (isLongest_of_leading? h)

end Operator

namespace Condition

inductive Token where
  | character (c : Char)
  | operator (op : Operator)
  deriving DecidableEq, Repr

/-- The tokens of a text that starts `inside` quotes, or outside; each quote changes that. -/
def tokens (inside : Bool) : Text → List Token
  | [] => []
  | c :: t =>
    if c = '"' then .character c :: tokens (!inside) t
    else if inside then .character c :: tokens inside t
    else match Operator.longest? (c :: t) with
      | none => .character c :: tokens inside t
      | some op => .operator op :: tokens inside ((c :: t).drop op.spelling.length)
termination_by t => t.length
decreasing_by
  · simp
  · simp
  · simp
  · have hpos := List.length_pos_of_ne_nil (Operator.spelling_ne_nil op)
    rw [List.length_drop, List.length_cons]
    omega

example : tokens false "A<>\">=".toList =
    [.character 'A', .operator .less, .operator .greater, .character '"', .character '>',
      .character '='] := by cbv

section Equations

variable {inside : Bool} {c : Char} {t : Text}

theorem tokens_cons_of_pass
    (h : c = '"' ∨ inside = true ∨ Operator.leading? (c :: t) = none) :
    tokens inside (c :: t) =
      .character c :: tokens (if c = '"' then !inside else inside) t := by
  rw [tokens]
  by_cases hc : c = '"'
  · rw [if_pos hc, if_pos hc]
  · rw [if_neg hc, if_neg hc]
    cases inside with
    | true => rfl
    | false =>
      have ho := (h.resolve_left hc).resolve_left Bool.false_ne_true
      rw [if_neg Bool.false_ne_true, Operator.longest?_eq_leading?, ho]
      rfl

theorem tokens_cons_of_stop (hc : c ≠ '"') {op : Operator} {rest : Text}
    (h : Operator.leading? (c :: t) = some (op, rest)) :
    tokens false (c :: t) = .operator op :: tokens false rest := by
  have hd : (c :: t).drop op.spelling.length = rest := by
    rw [Operator.append_of_leading? h, List.drop_left]
  rw [tokens, if_neg hc, if_neg Bool.false_ne_true, Operator.longest?_eq_leading?, h]
  dsimp only [Option.map_some]
  rw [hd]

end Equations

theorem tokens_of_divideFrom?_eq_none {inside : Bool} {t : Text}
    (h : divideFrom? inside t = none) : tokens inside t = t.map .character := by
  induction t generalizing inside with
  | nil => rw [tokens, List.map_nil]
  | cons c t ih =>
    obtain ⟨hp, hn⟩ := divideFrom?_cons_eq_none_iff.mp h
    rw [← Operator.leading?_cons_eq_none_iff (t := t)] at hp
    rw [tokens_cons_of_pass hp, ih hn, List.map_cons]

theorem tokens_of_divideFrom?_eq_some {inside : Bool} {t : Text} {d : Division}
    (h : divideFrom? inside t = some d) :
    tokens inside t =
      d.before.map .character ++ .operator d.operator :: tokens false d.after := by
  induction t generalizing inside d with
  | nil => cases h
  | cons c t ih =>
    rcases pass_or_stop inside c t with hp | ⟨hc, rfl, op, rest, ho⟩
    · rw [divideFrom?_cons_of_pass hp] at h
      obtain ⟨d, hd, rfl⟩ := Option.map_eq_some_iff.mp h
      rw [tokens_cons_of_pass hp, ih hd]
      rfl
    · rw [divideFrom?_cons_of_stop hc ho] at h
      cases h
      exact tokens_cons_of_stop hc ho

theorem map_character_append_inj {a b : Text} {op op' : Operator} {ts ts' : List Token}
    (h : a.map .character ++ .operator op :: ts = b.map .character ++ .operator op' :: ts') :
    a = b ∧ op = op' ∧ ts = ts' := by
  induction a generalizing b with
  | nil =>
    cases b with
    | nil => simpa using h
    | cons c b => simp at h
  | cons c a ih =>
    cases b with
    | nil => simp at h
    | cons d b =>
      simp only [List.map_cons, List.cons_append, List.cons.injEq, Token.character.injEq] at h
      obtain ⟨hab, hop, hts⟩ := ih h.2
      exact ⟨by rw [h.1, hab], hop, hts⟩

theorem operator_notMem_map_character (op : Operator) (t : Text) :
    Token.operator op ∉ t.map .character := by simp

theorem tokens_eq_map_character_iff {inside : Bool} {t u : Text} :
    tokens inside t = u.map .character ↔ divideFrom? inside t = none ∧ u = t := by
  cases hd : divideFrom? inside t with
  | none =>
    have hinj : Function.Injective Token.character := fun _ _ h => Token.character.inj h
    rw [tokens_of_divideFrom?_eq_none hd, hinj.list_map.eq_iff]
    simp [eq_comm]
  | some d =>
    simp only [reduceCtorEq, false_and, iff_false]
    intro h
    apply operator_notMem_map_character d.operator u
    rw [← h, tokens_of_divideFrom?_eq_some hd]
    simp

/-- One token is an operator exactly if the scan stops there and finds none in what follows. -/
theorem tokens_eq_iff_divide? {t before after : Text} {op : Operator} :
    tokens false t = before.map .character ++ .operator op :: after.map .character ↔
      divide? t = some ⟨before, op, after⟩ ∧ divide? after = none := by
  unfold divide?
  cases hd : divideFrom? false t with
  | none =>
    simp only [reduceCtorEq, false_and, iff_false]
    intro h
    apply operator_notMem_map_character op t
    rw [← tokens_of_divideFrom?_eq_none hd, h]
    simp
  | some d =>
    rw [tokens_of_divideFrom?_eq_some hd]
    constructor
    · intro h
      obtain ⟨hb, ho, ha⟩ := map_character_append_inj h
      obtain ⟨hn, rfl⟩ := tokens_eq_map_character_iff.mp ha
      subst hb ho
      exact ⟨rfl, hn⟩
    · rintro ⟨he, hn⟩
      cases he
      rw [tokens_of_divideFrom?_eq_none hn]

/--
A condition is a comparison exactly if it has one operator among its tokens and text on either side
of that, and then it compares these texts, trimmed, by that operator. Every other condition is kept
whole as invalid, and is found false by every machine.
-/
theorem compares_at_one_operator (t : Text) :
    (∀ l op r, ofText t = .compare l op r ↔ ∃ before after,
      tokens false t = before.map .character ++ .operator op :: after.map .character ∧
        l = trim before ∧ r = trim after ∧ l ≠ [] ∧ r ≠ []) ∧
    ((∃ l op r, ofText t = .compare l op r) ∨
      ofText t = .invalid t ∧
        ∀ m, Exec.decideCondition (ofText t) m = .ok false (m.report (.undecided t))) := by
  constructor
  · intro l op r
    simp only [ofText_eq_compare_iff, tokens_eq_iff_divide?, and_assoc]
  · cases h : ofText t with
    | compare l op r => exact .inl ⟨l, op, r, rfl⟩
    | invalid s =>
      obtain rfl := eq_invalid_of_ofText h
      exact .inr ⟨rfl, Exec.decideCondition_apply _⟩

/-- A quote that stays open hides an operator, and of two operators in a row none compares. -/
theorem compares_at_one_operator_of_open_quote :
    ∃ s t : Text, s = "A >= \"B = 1".toList ∧ t = "A => \"B = 1".toList ∧
      ofText s = .compare ['A'] .greaterEqual "\"B = 1".toList ∧
      ofText t = .invalid t ∧
      ∀ m, Exec.decideCondition (ofText t) m = .ok false (m.report (.undecided t)) := by
  obtain ⟨s, hs⟩ : ∃ s, s = "A >= \"B = 1".toList := ⟨_, rfl⟩
  obtain ⟨t, ht⟩ : ∃ t, t = "A => \"B = 1".toList := ⟨_, rfl⟩
  have hone : tokens false s = "A ".toList.map .character ++ .operator .greaterEqual ::
      " \"B = 1".toList.map .character := by
    rw [hs]
    cbv
  have htwo : tokens false t = "A ".toList.map .character ++ .operator .equal ::
      .operator .greater :: " \"B = 1".toList.map .character := by
    rw [ht]
    cbv
  obtain ⟨hcompare, -⟩ := compares_at_one_operator s
  obtain ⟨hinvalid, hcases⟩ := compares_at_one_operator t
  refine ⟨s, t, hs, ht, ?_, hcases.resolve_left ?_⟩
  · exact (hcompare _ _ _).mpr ⟨_, _, hone, by decide +kernel, by decide +kernel, by decide,
      by decide⟩
  · rintro ⟨l, op, r, h⟩
    obtain ⟨before, after, hsplit, -⟩ := (hinvalid l op r).mp h
    rw [htwo] at hsplit
    obtain ⟨-, -, hafter⟩ := map_character_append_inj hsplit
    exact operator_notMem_map_character .greater after (hafter ▸ List.mem_cons_self)

end Condition

end LineScript
