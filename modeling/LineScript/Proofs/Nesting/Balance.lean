import Mathlib.Data.List.Basic
import LineScript.Nesting

/-! # Balance

A program is balanced if a scan of it that starts with no block open ends with none open. What a
scan finds in a concatenation is settled by what it finds in the parts, and each of the segments
into which a block is divided is balanced if the block's text is.
-/

namespace LineScript

namespace Stack

def through (s : Stack) (p : Program) : Stack := p.foldl (fun s c => s.after c.statement) s

@[simp] theorem through_nil (s : Stack) : s.through [] = s := rfl

@[simp] theorem through_cons (s : Stack) (c : Command) (p : Program) :
    s.through (c :: p) = (s.after c.statement).through p := rfl

theorem through_append (s : Stack) (p q : Program) :
    s.through (p ++ q) = (s.through p).through q := List.foldl_append ..

theorem after_of_opens {st : Statement} {b : Block} (h : st.opens = some b) (s : Stack) :
    s.after st = b :: s := by
  simp [after, h]

theorem after_nil_of_opens_eq_none {st : Statement} (h : st.opens = none) :
    after [] st = [] := by
  unfold after
  rw [h]
  cases st.closes <;> rfl

theorem after_of_neutral {st : Statement} (ho : st.opens = none) (hc : st.closes = none)
    (s : Stack) : s.after st = s := by
  simp [after, ho, hc]

theorem after_of_closes {st : Statement} {b : Block} (h : st.closes = some b) (s : Stack) :
    after (b :: s) st = s := by
  simp [after, Statement.opens_eq_none_of_closes h, h]

theorem after_append {s : Stack} {st : Statement} {b : Block}
    (h : ¬ (s = [] ∧ st.closes = some b)) (t : Stack) :
    after (s ++ b :: t) st = s.after st ++ b :: t := by
  unfold after
  cases ho : st.opens with
  | some a => rfl
  | none =>
    cases hc : st.closes with
    | none => rfl
    | some a =>
      cases s with
      | nil =>
        have hne : a ≠ b := fun he => h ⟨rfl, he ▸ hc⟩
        simp [hne]
      | cons c s =>
        by_cases he : a = c <;> simp [he]

end Stack

namespace Program

/-- Induction along a program that may be continued at any later command. -/
@[elab_as_elim] theorem dropInduction {P : Program → Prop} (p : Program) (nil : P [])
    (cons : ∀ (c : Command) (rest : Program), (∀ n, P (rest.drop n)) → P (c :: rest)) : P p := by
  suffices h : ∀ n, P (p.drop n) from h 0
  induction p with
  | nil => intro n; rwa [List.drop_nil]
  | cons c p ih =>
    intro n
    cases n with
    | zero => exact cons c p ih
    | succ n => exact ih n

/-- No block is open at the end of the program. -/
def Balanced (p : Program) : Prop := Stack.through [] p = []

/-- No block is open at this position of the program. -/
def IsCut (p : Program) (i : Nat) : Prop := Balanced (p.take i)

instance (p : Program) : Decidable p.Balanced := inferInstanceAs (Decidable (_ = _))

theorem balanced_nil : Balanced [] := rfl

theorem Balanced.append_iff {p : Program} (hp : p.Balanced) (q : Program) :
    Balanced (p ++ q) ↔ q.Balanced := by
  unfold Balanced at hp ⊢
  rw [Stack.through_append, hp]

theorem take_eq_append_slice (p : Program) {i j : Nat} (h : i ≤ j) :
    p.take j = p.take i ++ p.slice i j := by
  have hd : (p.take j).take i = p.take i := by rw [List.take_take, Nat.min_eq_left h]
  conv_lhs => rw [← List.take_append_drop i (p.take j)]
  rw [hd]
  rfl

theorem IsCut.balanced_slice {p : Program} {i j : Nat} (hi : p.IsCut i) (hj : p.IsCut j)
    (h : i ≤ j) : Balanced (p.slice i j) := by
  unfold IsCut at hj
  rw [take_eq_append_slice p h] at hj
  exact (Balanced.append_iff hi _).mp hj

theorem isCut_zero (p : Program) : p.IsCut 0 := by simp [IsCut, balanced_nil]

theorem isCut_length {p : Program} (h : p.Balanced) : p.IsCut p.length := by
  unfold IsCut
  rwa [List.take_length]

theorem closerFrom?_append (b : Block) (s : Stack) (p q : Program) :
    closerFrom? b s (p ++ q) =
      (closerFrom? b s p).or ((closerFrom? b (s.through p) q).map (· + p.length)) := by
  induction p generalizing s with
  | nil => simp [closerFrom?]
  | cons c p ih =>
    rw [List.cons_append, closerFrom?, closerFrom?, ih]
    split
    · rfl
    · simp [Option.map_or, Option.map_map, Function.comp_def, Nat.add_assoc]

theorem through_of_closerFrom?_eq_none {b : Block} {s : Stack} {p : Program}
    (h : closerFrom? b s p = none) (t : Stack) :
    Stack.through (s ++ b :: t) p = s.through p ++ b :: t := by
  induction p generalizing s with
  | nil => rfl
  | cons c p ih =>
    unfold closerFrom? at h
    split at h
    · cases h
    · next hc =>
      have hn : ¬ (s = [] ∧ c.statement.closes = some b) := by
        rintro ⟨rfl, hb⟩
        simp [hb] at hc
      rw [Stack.through_cons, Stack.after_append hn, ih (Option.map_eq_none_iff.mp h)]
      rfl

/-- The command found is the first that closes the block on the level where it was opened. -/
theorem exists_of_closerFrom?_eq_some {b : Block} {s : Stack} {p : Program} {i : Nat}
    (h : closerFrom? b s p = some i) :
    ∃ p₁ c p₂, p = p₁ ++ c :: p₂ ∧ i = p₁.length ∧ c.statement.closes = some b ∧
      s.through p₁ = [] ∧ closerFrom? b s p₁ = none := by
  induction p generalizing s i with
  | nil => simp [closerFrom?] at h
  | cons c p ih =>
    unfold closerFrom? at h
    split at h
    · next hc =>
      simp only [Bool.and_eq_true, List.isEmpty_iff, beq_iff_eq] at hc
      cases h
      exact ⟨[], c, p, rfl, rfl, hc.2, hc.1, rfl⟩
    · next hc =>
      obtain ⟨j, hj, rfl⟩ := Option.map_eq_some_iff.mp h
      obtain ⟨p₁, d, p₂, rfl, rfl, hd, ht, hn⟩ := ih hj
      refine ⟨c :: p₁, d, p₂, rfl, rfl, hd, ht, ?_⟩
      rw [closerFrom?, if_neg hc, hn]
      rfl

section Closer

variable {b : Block} {p : Program} {i : Nat}

theorem lt_length_of_closer? (h : p.closer? b = some i) : i < p.length := by
  obtain ⟨p₁, c, p₂, rfl, rfl, -⟩ := exists_of_closerFrom?_eq_some h
  simp

theorem balanced_take_of_closer? (h : p.closer? b = some i) : Balanced (p.take i) := by
  obtain ⟨p₁, c, p₂, rfl, rfl, -, ht, -⟩ := exists_of_closerFrom?_eq_some h
  simpa [Balanced] using ht

theorem through_take_of_closer? (h : p.closer? b = some i) (t : Stack) :
    Stack.through (b :: t) (p.take (i + 1)) = t := by
  obtain ⟨p₁, c, p₂, rfl, rfl, hc, ht, hn⟩ := exists_of_closerFrom?_eq_some h
  have hp : Stack.through (b :: t) p₁ = b :: t := by
    have := through_of_closerFrom?_eq_none hn t
    rwa [ht] at this
  have he : (p₁ ++ c :: p₂).take (p₁.length + 1) = p₁ ++ [c] := by
    rw [List.take_length_add_append]
    rfl
  rw [he, Stack.through_append, hp]
  exact Stack.after_of_closes hc t

theorem closer?_append (h : p.closer? b = some i) (q : Program) :
    closer? (p ++ q) b = some i := by
  unfold closer? at h ⊢
  rw [closerFrom?_append, h, Option.some_or]

theorem exists_closer?_of_through {t : Stack} (h : Stack.through (b :: t) p = t) :
    ∃ i, p.closer? b = some i := by
  rw [← Option.isSome_iff_exists]
  by_contra hn
  have hn : p.closer? b = none := by simpa using hn
  have hl := congrArg List.length (through_of_closerFrom?_eq_none (s := []) hn t)
  rw [List.nil_append, h, List.length_append, List.length_cons] at hl
  omega

theorem balanced_cons_iff {c : Command} (ho : c.statement.opens = none) :
    Balanced (c :: p) ↔ p.Balanced := by
  unfold Balanced
  rw [Stack.through_cons, Stack.after_nil_of_opens_eq_none ho]

theorem balanced_block_iff {c : Command} (ho : c.statement.opens = some b)
    (h : p.closer? b = some i) : Balanced (c :: p) ↔ Balanced (p.drop (i + 1)) := by
  have hp : Stack.through [b] p = Stack.through [] (p.drop (i + 1)) := by
    conv_lhs => rw [← List.take_append_drop (i + 1) p]
    rw [Stack.through_append, through_take_of_closer? h]
  unfold Balanced
  rw [Stack.through_cons, Stack.after_of_opens ho, hp]

/-- In a balanced text every block is closed, and what follows the block is balanced again. -/
theorem Balanced.closer? {c : Command} (h : Balanced (c :: p)) (ho : c.statement.opens = some b) :
    ∃ i, p.closer? b = some i ∧ Balanced (p.drop (i + 1)) := by
  have ht : Stack.through [b] p = [] := by
    unfold Balanced at h
    rwa [Stack.through_cons, Stack.after_of_opens ho] at h
  obtain ⟨i, hi⟩ := exists_closer?_of_through ht
  exact ⟨i, hi, (balanced_block_iff ho hi).mp h⟩

theorem Balanced.tail {c : Command} (h : Balanced (c :: p)) (ho : c.statement.opens = none) :
    p.Balanced := (balanced_cons_iff ho).mp h

end Closer

end Program

end LineScript
