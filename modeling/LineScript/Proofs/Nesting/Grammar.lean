import LineScript.Proofs.Nesting.Enclosure
import LineScript.Proofs.Nesting.Scan

/-! # The text of a block

What can stand between the header of a block and its closer is given by a grammar: statements that
open nothing and do not close this block, and whole blocks of any kind. A closer that does not fit
is part of the text. The search for a closer finds the one end that the grammar allows, if there is
one.
-/

namespace LineScript

/-- The sequences of statements that can stand inside a block of kind `b`. -/
inductive Block.Items : Block → List Statement → Prop where
  | nil {b : Block} : Items b []
  | plain {b : Block} {s : Statement} {w : List Statement} : s.opens = none → s.closes ≠ some b →
      Items b w → Items b (s :: w)
  | block {b k : Block} {o c : Statement} {u w : List Statement} : o.opens = some k → Items k u →
      c.closes = some k → Items b w → Items b (o :: (u ++ c :: w))

namespace Program

variable {p q : Program} {c d : Command} {b k : Block} {i : Nat}

theorem inside_nil (b : Block) : Inside b [] := ⟨rfl, rfl⟩

theorem inside_cons_iff (ho : c.statement.opens = none) :
    Inside b (c :: p) ↔ c.statement.closes ≠ some b ∧ Inside b p := by
  have hc : closer? (c :: p) b = none ↔ c.statement.closes ≠ some b ∧ p.closer? b = none := by
    unfold closer?
    rw [closerFrom?, Stack.after_nil_of_opens_eq_none ho]
    by_cases h : c.statement.closes = some b <;> simp [h]
  constructor
  · rintro ⟨hb, hn⟩
    exact ⟨(hc.mp hn).1, hb.tail ho, (hc.mp hn).2⟩
  · rintro ⟨hne, hb, hn⟩
    exact ⟨(balanced_cons_iff ho).mpr hb, hc.mpr ⟨hne, hn⟩⟩

theorem exists_inside_of_closer? (h : p.closer? b = some i) :
    ∃ p₁ c p₂, p = p₁ ++ c :: p₂ ∧ i = p₁.length ∧ c.statement.closes = some b ∧ Inside b p₁ := by
  obtain ⟨p₁, c, p₂, hp, hi, hc, ht, hn⟩ := exists_of_closerFrom?_eq_some h
  exact ⟨p₁, c, p₂, hp, hi, hc, ht, hn⟩

theorem inside_block_iff (ho : c.statement.opens = some k) (hp : Inside k p)
    (hd : d.statement.closes = some k) : Inside b (c :: (p ++ d :: q)) ↔ Inside b q := by
  have hcloser := hp.closer?_append_cons hd q
  have hcut : (p ++ d :: q).drop (p.length + 1) = q := by
    rw [List.drop_length_add_append]
    rfl
  have hbalanced := balanced_block_iff ho hcloser
  rw [hcut] at hbalanced
  have hc : c.statement.closes ≠ some b := by
    intro hc
    rw [Statement.opens_eq_none_of_closes hc] at ho
    cases ho
  have hnone : closer? (c :: (p ++ d :: q)) b = none ↔ q.closer? b = none := by
    unfold Program.closer?
    rw [closerFrom?, Stack.after_of_opens ho, closerFrom?_append,
      closerFrom?_of_closer?_eq_none hp.closer?, hp.through, closerFrom?, Stack.after_of_closes hd]
    simp [hc]
  exact ⟨fun h => ⟨hbalanced.mp h.balanced, hnone.mp h.closer?⟩,
    fun h => ⟨hbalanced.mpr h.balanced, hnone.mpr h.closer?⟩⟩

theorem Inside.of_items {w : List Statement} (h : b.Items w) (hw : p.statements = w) :
    Inside b p := by
  induction h generalizing p with
  | nil =>
    rw [List.map_eq_nil_iff.mp hw]
    exact inside_nil _
  | plain ho hc _ ih =>
    obtain ⟨c, p, rfl, rfl, hp⟩ := List.map_eq_cons_iff.mp hw
    exact (inside_cons_iff ho).mpr ⟨hc, ih hp⟩
  | block ho _ hc _ ihu ihw =>
    obtain ⟨o, r, rfl, rfl, hr⟩ := List.map_eq_cons_iff.mp hw
    obtain ⟨u, v, rfl, hu, hv⟩ := List.map_eq_append_iff.mp hr
    obtain ⟨c, t, rfl, rfl, ht⟩ := List.map_eq_cons_iff.mp hv
    exact (inside_block_iff ho (ihu hu) hc).mpr (ihw ht)

theorem Inside.items (h : Inside b p) : b.Items p.statements := by
  -- a block is split at its closer, so the induction is on the length of the text
  induction hn : p.length using Nat.strongRecOn generalizing p b with
  | ind n ih =>
    subst hn
    cases p with
    | nil => exact .nil
    | cons c rest =>
      cases ho : c.statement.opens with
      | none =>
        obtain ⟨hc, hr⟩ := (inside_cons_iff ho).mp h
        exact .plain ho hc (ih rest.length (by simp) hr rfl)
      | some k =>
        obtain ⟨i, hi, -⟩ := h.balanced.closer? ho
        obtain ⟨p₁, d, p₂, rfl, -, hd, hp₁⟩ := exists_inside_of_closer? hi
        have hp₂ := (inside_block_iff ho hp₁ hd).mp h
        have hlen : (c :: (p₁ ++ d :: p₂)).length = p₁.length + (p₂.length + 1) + 1 := by
          rw [List.length_cons, List.length_append, List.length_cons]
        have hi₁ := ih p₁.length (by omega) hp₁ rfl
        have hi₂ := ih p₂.length (by omega) hp₂ rfl
        have he : statements (c :: (p₁ ++ d :: p₂)) =
            c.statement :: (p₁.statements ++ d.statement :: statements p₂) := by
          simp [statements]
        rw [he]
        exact .block ho hi₁ hd hi₂

/-- The grammar describes the text that stays inside a block. -/
theorem items_iff : b.Items p.statements ↔ Inside b p :=
  ⟨fun h => .of_items h rfl, Inside.items⟩

/-- A command is found as the closer if it is one, and the text before it is that of the block. -/
theorem closer?_eq_some_iff :
    p.closer? b = some i ↔
      (∃ c, p[i]? = some c ∧ c.statement.closes = some b) ∧ b.Items (statements (p.take i)) := by
  constructor
  · intro h
    obtain ⟨p₁, c, p₂, rfl, rfl, hc, hp⟩ := exists_inside_of_closer? h
    refine ⟨⟨c, by simp, hc⟩, ?_⟩
    rw [List.take_left]
    exact hp.items
  · rintro ⟨⟨c, hget, hc⟩, hi⟩
    obtain ⟨hlt, rfl⟩ := List.getElem?_eq_some_iff.mp hget
    have hs : p.take i ++ p[i] :: p.drop (i + 1) = p := by
      rw [← List.drop_eq_getElem_cons hlt, List.take_append_drop]
    have hf := (items_iff.mp hi).closer?_append_cons hc (p.drop (i + 1))
    rwa [hs, List.length_take, Nat.min_eq_left (Nat.le_of_lt hlt)] at hf

theorem getElem?_slice (p : Program) (start stop i : Nat) :
    (p.slice start stop)[i]? = if start + i < stop then p[start + i]? else none := by
  unfold slice
  rw [List.getElem?_drop, List.getElem?_take]

theorem take_slice (p : Program) {start stop i : Nat} (h : start + i ≤ stop) :
    (p.slice start stop).take i = p.slice start (start + i) := by
  unfold slice
  rw [List.take_drop, List.take_take, Nat.min_eq_left h]

/-- The text from `start` on is that of a block of kind `b` which ends at `e`, before `limit`. -/
structure EndsAt (p : Program) (start : Nat) (b : Block) (limit e : Nat) : Prop where
  after : start < e
  before : e < limit
  closes : ∃ c, p[e]? = some c ∧ c.statement.closes = some b
  items : b.Items (p.slice (start + 1) e).statements

theorem findCloser_eq_ok_iff_endsAt {start limit e : Nat} :
    p.findCloser start b limit = .ok e ↔ p.EndsAt start b limit e := by
  rw [findCloser_eq_ok_iff]
  constructor
  · rintro ⟨i, hi, rfl⟩
    obtain ⟨⟨c, hget, hc⟩, hitems⟩ := closer?_eq_some_iff.mp hi
    rw [getElem?_slice] at hget
    split at hget
    · next hlt =>
      rw [take_slice p (Nat.le_of_lt hlt)] at hitems
      exact ⟨by omega, hlt, ⟨c, hget, hc⟩, hitems⟩
    · cases hget
  · rintro ⟨hafter, hbefore, ⟨c, hget, hc⟩, hitems⟩
    obtain ⟨i, rfl⟩ := Nat.exists_eq_add_of_le (Nat.succ_le_of_lt hafter)
    refine ⟨i, closer?_eq_some_iff.mpr ⟨⟨c, ?_, hc⟩, ?_⟩, rfl⟩
    · rw [getElem?_slice, if_pos hbefore, hget]
    · rw [take_slice p (Nat.le_of_lt hbefore)]
      exact hitems

theorem findCloser_eq_ok_or {start : Nat} (hs : start < p.length) (b : Block) (limit : Nat) :
    (∃ e, p.findCloser start b limit = .ok e) ∨
      ∃ c, p[start]? = some c ∧ p.findCloser start b limit = .error (.ofOpenBlock c.line b) := by
  have hget := List.getElem?_eq_getElem hs
  unfold findCloser
  cases (p.slice (start + 1) limit).closer? b with
  | some i => exact .inl ⟨_, rfl⟩
  | none => exact .inr ⟨p[start], hget, by rw [hget]⟩

/--
The search for the closer of a block recognises the grammar. It finds exactly the positions that
close such a block and have its text before them; there is at most one, and where there is none the
search fails, naming the line of the header and the closer that was expected.
-/
theorem findCloser_recognises_items {start : Nat} (hs : start < p.length) (b : Block)
    (limit : Nat) :
    (∀ e, p.findCloser start b limit = .ok e ↔ p.EndsAt start b limit e) ∧
    (∀ e e', p.EndsAt start b limit e → p.EndsAt start b limit e' → e = e') ∧
    ((∀ e, ¬ p.EndsAt start b limit e) →
      ∃ c, p[start]? = some c ∧ p.findCloser start b limit = .error
        ⟨.unterminated, some c.line, "EXPECTED ".toList ++ b.closer.spelling⟩) := by
  refine ⟨fun e => findCloser_eq_ok_iff_endsAt, fun e e' he he' => ?_, fun hn => ?_⟩
  · have hok := findCloser_eq_ok_iff_endsAt.mpr he
    rw [findCloser_eq_ok_iff_endsAt.mpr he'] at hok
    cases hok
    rfl
  · rcases findCloser_eq_ok_or hs b limit with ⟨e, he⟩ | herror
    · exact absurd (findCloser_eq_ok_iff_endsAt.mp he) (hn e)
    · exact herror

/-- Closers that do not fit stand by and in an inner block; a limit hides the one that does. -/
theorem items_with_stray_closers :
    ∃ p : Program, ofText ("IF A = 1 THEN\nENDCASE\nREVELATION_CASE X\nENDIF\nENDCASE\n" ++
        "ENDIF\nENDIF").toList = .ok p ∧
      p.EndsAt 0 .conditional 7 5 ∧ ¬ p.EndsAt 0 .conditional 7 6 ∧
      (∀ e, ¬ p.EndsAt 0 .conditional 5 e) ∧
      p.findCloser 0 .conditional 5 = .error
        ⟨.unterminated, some ⟨1, "IF A = 1 THEN".toList⟩, "EXPECTED ENDIF".toList⟩ := by
  let p : Program :=
    [⟨⟨1, "IF A = 1 THEN".toList⟩, .ifThen (.compare ['A'] .equal ['1'])⟩,
      ⟨⟨2, "ENDCASE".toList⟩, .close .selection⟩,
      ⟨⟨3, "REVELATION_CASE X".toList⟩, .caseOf ['X']⟩,
      ⟨⟨4, "ENDIF".toList⟩, .close .conditional⟩,
      ⟨⟨5, "ENDCASE".toList⟩, .close .selection⟩,
      ⟨⟨6, "ENDIF".toList⟩, .close .conditional⟩,
      ⟨⟨7, "ENDIF".toList⟩, .close .conditional⟩]
  have hlong := findCloser_recognises_items (show 0 < p.length by decide) .conditional 7
  have hshort := findCloser_recognises_items (show 0 < p.length by decide) .conditional 5
  have hend : p.EndsAt 0 .conditional 7 5 := (hlong.1 5).mp (by decide)
  have hfail : p.findCloser 0 .conditional 5 = .error
      (.ofOpenBlock ⟨1, "IF A = 1 THEN".toList⟩ .conditional) := by decide
  have hnone : ∀ e, ¬ p.EndsAt 0 .conditional 5 e := by
    intro e he
    cases hfail.symm.trans ((hshort.1 e).mpr he)
  refine ⟨p, by decide +kernel, hend, fun h => ?_, hnone, ?_⟩
  · cases hlong.2.1 5 6 hend h
  · obtain ⟨c, hc, herror⟩ := hshort.2.2 hnone
    cases hc
    exact herror

end Program

end LineScript
