import LineScript.Proofs.Nesting.Balance

/-! # Dividing the text of a block

The top level of a balanced text consists of cuts. Hence the parts on either side of an `ELSE`, and
the arms of a selection, are balanced segments of the text they divide.
-/

namespace LineScript

def Statement.marker : Option Text → Statement
  | some label => .when label
  | none => .otherwise

theorem Statement.isPlain_marker (label : Option Text) :
    (marker label).opens = none ∧ (marker label).closes = none ∧
      Arm.label? (marker label) = some label := by
  cases label <;> exact ⟨rfl, rfl, rfl⟩

theorem Arm.ofMarkers_cons (stop i : Nat) (label : Option Text) (ms : List (Nat × Option Text)) :
    Arm.ofMarkers stop ((i, label) :: ms) =
      ⟨label, i + 1, (ms.head?.map Prod.fst).getD stop⟩ :: Arm.ofMarkers stop ms := by
  cases ms with
  | nil => rfl
  | cons m ms => rfl

namespace Program

variable {p : Program}

theorem topLevelFrom_append (s : Stack) (i : Nat) (p q : Program) :
    topLevelFrom s i (p ++ q) =
      topLevelFrom s i p ++ topLevelFrom (s.through p) (i + p.length) q := by
  induction p generalizing s i with
  | nil => rfl
  | cons c p ih =>
    have hl : i + (c :: p).length = i + 1 + p.length := by
      rw [List.length_cons]
      omega
    rw [List.cons_append, topLevelFrom, topLevelFrom, ih, hl, Stack.through_cons]
    split
    · rfl
    · rfl

theorem exists_of_mem_topLevelFrom {s : Stack} {i : Nat} {x : Nat × Statement}
    (h : x ∈ topLevelFrom s i p) :
    ∃ p₁ c p₂, p = p₁ ++ c :: p₂ ∧ x = (i + p₁.length, c.statement) ∧ s.through p₁ = [] := by
  induction p generalizing s i with
  | nil => simp [topLevelFrom] at h
  | cons c p ih =>
    have hrec : x ∈ topLevelFrom (s.after c.statement) (i + 1) p →
        ∃ p₁ d p₂, c :: p = p₁ ++ d :: p₂ ∧ x = (i + p₁.length, d.statement) ∧
          s.through p₁ = [] := by
      intro hx
      obtain ⟨p₁, d, p₂, rfl, rfl, ht⟩ := ih hx
      refine ⟨c :: p₁, d, p₂, rfl, ?_, ht⟩
      rw [List.length_cons]
      congr 1
      omega
    unfold topLevelFrom at h
    dsimp only at h
    split at h
    · next hs =>
      rcases List.mem_cons.mp h with rfl | h
      · exact ⟨[], c, p, rfl, rfl, List.isEmpty_iff.mp hs⟩
      · exact hrec h
    · exact hrec h

theorem pairwise_topLevelFrom (s : Stack) (i : Nat) (p : Program) :
    (topLevelFrom s i p).Pairwise (·.1 < ·.1) := by
  induction p generalizing s i with
  | nil => exact List.Pairwise.nil
  | cons c p ih =>
    unfold topLevelFrom
    dsimp only
    split
    · refine List.pairwise_cons.mpr ⟨fun x hx => ?_, ih _ _⟩
      obtain ⟨p₁, d, p₂, -, rfl, -⟩ := exists_of_mem_topLevelFrom hx
      dsimp only
      omega
    · exact ih _ _

theorem isCut_of_append {p₁ : Program} (h : Stack.through [] p₁ = []) (p₂ : Program) :
    IsCut (p₁ ++ p₂) p₁.length := by
  simpa [IsCut, Balanced] using h

theorem isCut_of_mem_topLevel {i : Nat} {st : Statement} (h : (i, st) ∈ p.topLevel)
    (ho : st.opens = none) : i < p.length ∧ p.IsCut i ∧ p.IsCut (i + 1) := by
  obtain ⟨p₁, c, p₂, rfl, hx, ht⟩ := exists_of_mem_topLevelFrom h
  simp only [Prod.mk.injEq, Nat.zero_add] at hx
  obtain ⟨rfl, rfl⟩ := hx
  refine ⟨by simp, isCut_of_append ht _, ?_⟩
  have hc : Stack.through [] (p₁ ++ [c]) = [] := by
    rw [Stack.through_append, ht]
    exact Stack.after_nil_of_opens_eq_none ho
  have := isCut_of_append hc p₂
  simpa using this

theorem isCut_of_otherwise? {i : Nat} (h : p.otherwise? = some i) :
    i < p.length ∧ p.IsCut i ∧ p.IsCut (i + 1) := by
  obtain ⟨⟨j, st⟩, hf, rfl⟩ := Option.map_eq_some_iff.mp h
  have hst : st = .otherwise := by simpa using List.find?_some hf
  subst hst
  exact isCut_of_mem_topLevel (List.mem_of_find?_eq_some hf) rfl

theorem isCut_of_mem_markers {i : Nat} {label : Option Text} (h : (i, label) ∈ p.markers) :
    i < p.length ∧ p.IsCut i ∧ p.IsCut (i + 1) := by
  obtain ⟨⟨j, st⟩, hm, hl⟩ := List.mem_filterMap.mp h
  obtain ⟨l, hst, hx⟩ := Option.map_eq_some_iff.mp hl
  cases hx
  have ho : st.opens = none := by
    cases st <;> first | rfl | simp [Arm.label?] at hst
  exact isCut_of_mem_topLevel hm ho

theorem pairwise_markers (p : Program) : p.markers.Pairwise (·.1 < ·.1) := by
  refine (pairwise_topLevelFrom [] 0 p).filterMap _ ?_
  rintro ⟨i, st⟩ ⟨j, st'⟩ hij x hx y hy
  obtain ⟨-, -, rfl⟩ := Option.map_eq_some_iff.mp hx
  obtain ⟨-, -, rfl⟩ := Option.map_eq_some_iff.mp hy
  exact hij

end Program

theorem Arm.exists_of_mem_ofMarkers {stop : Nat} {ms : List (Nat × Option Text)} {a : Arm}
    (hs : ms.Pairwise (·.1 < ·.1)) (h : a ∈ Arm.ofMarkers stop ms) :
    ∃ i, (i, a.label) ∈ ms ∧ a.start = i + 1 ∧
      (a.stop = stop ∨ i < a.stop ∧ ∃ next, (a.stop, next) ∈ ms) := by
  fun_induction Arm.ofMarkers stop ms with
  | case1 => simp at h
  | case2 i label =>
    rw [List.mem_singleton] at h
    subst h
    exact ⟨i, List.mem_singleton_self _, rfl, .inl rfl⟩
  | case3 i label j next rest ih =>
    rcases List.mem_cons.mp h with rfl | h
    · have hij : i < j := (List.pairwise_cons.mp hs).1 (j, next) List.mem_cons_self
      exact ⟨i, List.mem_cons_self, rfl, .inr ⟨hij, next, by simp⟩⟩
    · obtain ⟨k, hk, hst, hstop⟩ := ih (List.pairwise_cons.mp hs).2 h
      refine ⟨k, List.mem_cons_of_mem _ hk, hst, hstop.imp_right ?_⟩
      rintro ⟨hlt, n, hn⟩
      exact ⟨hlt, n, List.mem_cons_of_mem _ hn⟩

namespace Program

variable {p : Program}

/-- The arms of a balanced text lie between cuts of it. -/
theorem Balanced.isCut_of_mem_arms (hp : p.Balanced) {a : Arm} (h : a ∈ p.arms) :
    a.start ≤ a.stop ∧ a.stop ≤ p.length ∧ p.IsCut a.start ∧ p.IsCut a.stop := by
  obtain ⟨i, hi, hst, hstop⟩ := Arm.exists_of_mem_ofMarkers (pairwise_markers p) h
  obtain ⟨hlt, -, hc⟩ := isCut_of_mem_markers hi
  rw [hst]
  rcases hstop with hstop | ⟨hij, next, hn⟩
  · rw [hstop]
    exact ⟨hlt, Nat.le_refl _, hc, isCut_length hp⟩
  · obtain ⟨hlt', hc', -⟩ := isCut_of_mem_markers hn
    exact ⟨hij, Nat.le_of_lt hlt', hc, hc'⟩

theorem mem_arms_of_choose? {label : Text} {a : Arm} (h : Arm.choose? p.arms label = some a) :
    a ∈ p.arms := by
  rcases Option.or_eq_some_iff.mp h with h | ⟨-, h⟩
  · exact List.mem_of_find?_eq_some h
  · exact List.mem_of_find?_eq_some h

end Program

end LineScript
