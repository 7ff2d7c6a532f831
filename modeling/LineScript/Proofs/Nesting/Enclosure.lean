import LineScript.Proofs.Nesting.Division

/-! # Self-contained text

Text stays inside a block if it closes the blocks that it opens, and not that one; it is
self-contained if it stays inside every block. A scan passes over such text with its stack
unchanged, whatever is open around it, and a whole block shows nothing of itself on the top level
but its header.
-/

namespace LineScript.Program

/-- Every block opened in the text is closed in it, and no other is. -/
structure SelfContained (p : Program) : Prop where
  balanced : p.Balanced
  closer? : ∀ b, p.closer? b = none

/-- Every block opened in the text is closed in it, and the text does not close the block `b`. -/
structure Inside (b : Block) (p : Program) : Prop where
  balanced : p.Balanced
  closer? : p.closer? b = none

/-- No `ELSE` and no `WHEN` stands on the top level of the text. -/
def Unmarked (p : Program) : Prop := ∀ x ∈ p.topLevel, Arm.label? x.2 = none

section Scanning

variable {p q : Program} {b : Block}

theorem topLevelFrom_of_closerFrom?_eq_none {s : Stack} (h : closerFrom? b s p = none) (t : Stack)
    (i : Nat) : topLevelFrom (s ++ b :: t) i p = [] := by
  induction p generalizing s i with
  | nil => rfl
  | cons c p ih =>
    rw [closerFrom?] at h
    split at h
    · cases h
    · next hc =>
      have hn : ¬ (s = [] ∧ c.statement.closes = some b) := by
        rintro ⟨rfl, hb⟩
        simp [hb] at hc
      rw [topLevelFrom, Stack.after_append hn, ih (Option.map_eq_none_iff.mp h)]
      simp

theorem closerFrom?_of_closer?_eq_none {a : Block} (h : p.closer? a = none) (b : Block) :
    closerFrom? b [a] p = none := by
  have ht : topLevelFrom [a] 0 p = [] := topLevelFrom_of_closerFrom?_eq_none h [] 0
  have hf := closerFrom?_eq_find? b [a] 0 p
  rw [ht] at hf
  simpa using hf

theorem topLevelFrom_add (s : Stack) (i k : Nat) (p : Program) :
    topLevelFrom s (i + k) p = (topLevelFrom s i p).map fun x => (x.1 + k, x.2) := by
  induction p generalizing s i with
  | nil => rfl
  | cons c p ih =>
    have hi : i + k + 1 = i + 1 + k := by omega
    rw [topLevelFrom, topLevelFrom, hi, ih]
    split
    · rfl
    · rfl

theorem closer?_of_closes {c : Command} (hc : c.statement.closes = some b) (p : Program) :
    closer? (c :: p) b = some 0 := by
  simp [closer?, closerFrom?, hc]

end Scanning

namespace Inside

variable {p : Program} {b : Block}

theorem through (h : Inside b p) (s : Stack) : Stack.through (b :: s) p = b :: s := by
  have ht := through_of_closerFrom?_eq_none h.closer? s
  rwa [List.nil_append, show Stack.through [] p = [] from h.balanced] at ht

/-- A block ends where text that stays inside it does. -/
theorem closer?_append_cons (h : Inside b p) {d : Command} (hd : d.statement.closes = some b)
    (q : Program) : Program.closer? (p ++ d :: q) b = some p.length := by
  have hd : closerFrom? b [] (d :: q) = some 0 := closer?_of_closes hd q
  unfold Program.closer?
  rw [closerFrom?_append, show closerFrom? b [] p = none from h.closer?,
    show Stack.through [] p = [] from h.balanced, hd]
  simp

end Inside

namespace SelfContained

variable {p q : Program} {c d : Command} {b : Block}

theorem nil : SelfContained [] := ⟨rfl, fun _ => rfl⟩

theorem inside (h : SelfContained p) (b : Block) : Inside b p := ⟨h.balanced, h.closer? b⟩

theorem through (h : SelfContained p) (s : Stack) : s.through p = s := by
  cases s with
  | nil => exact h.balanced
  | cons a s => exact (h.inside a).through s

theorem closer?_append (h : SelfContained p) (q : Program) (b : Block) :
    Program.closer? (p ++ q) b = (q.closer? b).map (· + p.length) := by
  unfold Program.closer?
  rw [closerFrom?_append, show closerFrom? b [] p = none from h.closer? b, h.through]
  rfl

/-- The block around self-contained text ends where the text does. -/
theorem closer?_append_cons (h : SelfContained p) (hd : d.statement.closes = some b)
    (q : Program) : Program.closer? (p ++ d :: q) b = some p.length :=
  (h.inside b).closer?_append_cons hd q

theorem topLevel_append (h : SelfContained p) (q : Program) :
    Program.topLevel (p ++ q) = p.topLevel ++ q.topLevel.map fun x => (x.1 + p.length, x.2) := by
  unfold Program.topLevel
  rw [topLevelFrom_append, h.through, topLevelFrom_add]

theorem append (hp : SelfContained p) (hq : SelfContained q) : SelfContained (p ++ q) := by
  refine ⟨(hp.balanced.append_iff q).mpr hq.balanced, fun b => ?_⟩
  rw [hp.closer?_append, hq.closer?]
  rfl

theorem plain (ho : c.statement.opens = none) (hc : c.statement.closes = none) :
    SelfContained [c] := by
  refine ⟨Stack.after_of_neutral ho hc [], fun b => ?_⟩
  simp [Program.closer?, closerFrom?, hc]

theorem block (ho : c.statement.opens = some b) (hp : SelfContained p)
    (hd : d.statement.closes = some b) : SelfContained (c :: (p ++ [d])) := by
  have hc : c.statement.closes = none := by
    cases hc : c.statement.closes with
    | none => rfl
    | some a =>
      rw [Statement.opens_eq_none_of_closes hc] at ho
      cases ho
  constructor
  · unfold Balanced
    rw [Stack.through_cons, Stack.after_of_opens ho, Stack.through_append, hp.through]
    exact Stack.after_of_closes hd []
  · intro a
    have hn := closerFrom?_of_closer?_eq_none (hp.closer? b) a
    unfold Program.closer?
    rw [closerFrom?, Stack.after_of_opens ho, closerFrom?_append, hn, hp.through]
    simp [closerFrom?, hc]

theorem topLevel_block (ho : c.statement.opens = some b) (hp : SelfContained p)
    (d : Command) : Program.topLevel (c :: (p ++ [d])) = [(0, c.statement)] := by
  have ht : topLevelFrom [b] 1 p = [] := topLevelFrom_of_closerFrom?_eq_none (hp.closer? b) [] 1
  unfold Program.topLevel
  rw [topLevelFrom, Stack.after_of_opens ho, topLevelFrom_append, hp.through, ht]
  simp [topLevelFrom]

end SelfContained

namespace Unmarked

variable {p q : Program} {c d : Command} {b : Block}

theorem nil : Unmarked [] := by simp [Unmarked, Program.topLevel, topLevelFrom]

theorem plain (h : Arm.label? c.statement = none) : Unmarked [c] := by
  simp [Unmarked, Program.topLevel, topLevelFrom, h]

theorem append (hs : SelfContained p) (hp : Unmarked p) (hq : Unmarked q) :
    Unmarked (p ++ q) := by
  intro x hx
  rw [hs.topLevel_append] at hx
  rcases List.mem_append.mp hx with hx | hx
  · exact hp x hx
  · obtain ⟨y, hy, rfl⟩ := List.mem_map.mp hx
    exact hq y hy

theorem block (ho : c.statement.opens = some b) (hp : SelfContained p) (d : Command) :
    Unmarked (c :: (p ++ [d])) := by
  intro x hx
  rw [hp.topLevel_block ho d, List.mem_singleton] at hx
  subst hx
  cases hc : c.statement <;> first | rfl | simp [hc, Statement.opens] at ho

theorem otherwise? (h : Unmarked p) : p.otherwise? = none := by
  have hn : ∀ x ∈ p.topLevel, ¬ (x.2 == .otherwise) = true := by
    intro x hx he
    have hl := h x hx
    rw [beq_iff_eq.mp he] at hl
    cases hl
  unfold Program.otherwise?
  rw [List.find?_eq_none.mpr hn]
  rfl

theorem markers (h : Unmarked p) : p.markers = [] := by
  unfold Program.markers
  rw [List.filterMap_eq_nil_iff]
  rintro ⟨i, st⟩ hx
  have hl : Arm.label? st = none := h _ hx
  simp [hl]

end Unmarked

theorem otherwise?_append {p : Program} (hs : SelfContained p) (hu : Unmarked p) {c : Command}
    (hc : c.statement = .otherwise) (q : Program) : otherwise? (p ++ c :: q) = some p.length := by
  have hp : p.topLevel.find? (·.2 == .otherwise) = none := by
    simpa [otherwise?] using hu.otherwise?
  unfold otherwise?
  rw [hs.topLevel_append, List.find?_append, hp, topLevel, topLevelFrom]
  simp [hc]

theorem markers_append {p : Program} (hs : SelfContained p) (q : Program) :
    markers (p ++ q) = p.markers ++ q.markers.map fun x => (x.1 + p.length, x.2) := by
  unfold markers
  rw [hs.topLevel_append, List.filterMap_append, List.filterMap_map, List.map_filterMap]
  congr 2
  funext x
  obtain ⟨i, st⟩ := x
  cases Arm.label? st <;> simp [Function.comp_def]

end LineScript.Program
