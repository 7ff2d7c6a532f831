import LineScript.Proofs.Nesting.Balance

/-! # Scanning the top level

A scan walks along the top level of a program, from the header of a block to what follows its
closer, and stops at the first header whose block is not closed.
-/

namespace LineScript.Program

variable {p : Program}

theorem findCloser_eq_ok_iff {i limit e : Nat} {b : Block} :
    p.findCloser i b limit = .ok e ↔
      ∃ k, (p.slice (i + 1) limit).closer? b = some k ∧ e = i + 1 + k := by
  unfold findCloser
  cases (p.slice (i + 1) limit).closer? b with
  | some k => simp [eq_comm]
  | none => cases p[i]? <;> simp

theorem lt_of_findCloser {i limit e : Nat} {b : Block} (h : p.findCloser i b limit = .ok e) :
    i < e ∧ e < limit := by
  obtain ⟨k, hk, rfl⟩ := findCloser_eq_ok_iff.mp h
  have hlt := lt_length_of_closer? hk
  unfold slice at hlt
  rw [List.length_drop, List.length_take] at hlt
  omega

/-- The first header, on a walk that starts at position `i`, whose block is not closed. -/
def scanFrom (p : Program) (i : Nat) : Option (Nat × Block) :=
  if hi : i < p.length then
    match p[i].statement.opens with
    | none => scanFrom p (i + 1)
    | some b =>
      match he : p.findCloser i b p.length with
      | .ok e => scanFrom p (e + 1)
      | .error _ => some (i, b)
  else none
termination_by p.length - i
decreasing_by
  · omega
  · have := lt_of_findCloser he
    omega

def scan (p : Program) : Option (Nat × Block) := p.scanFrom 0

theorem scanFrom_of_length_le {i : Nat} (h : p.length ≤ i) : p.scanFrom i = none := by
  rw [scanFrom, dif_neg (Nat.not_lt.mpr h)]

section Walk

variable {i : Nat} {c : Command} {b : Block} (hc : p[i]? = some c)

include hc

theorem scanFrom_of_plain (ho : c.statement.opens = none) : p.scanFrom i = p.scanFrom (i + 1) := by
  obtain ⟨hi, rfl⟩ := List.getElem?_eq_some_iff.mp hc
  rw [scanFrom, dif_pos hi, ho]

theorem scanFrom_of_closed (ho : c.statement.opens = some b) {e : Nat}
    (he : p.findCloser i b p.length = .ok e) : p.scanFrom i = p.scanFrom (e + 1) := by
  obtain ⟨hi, rfl⟩ := List.getElem?_eq_some_iff.mp hc
  rw [scanFrom, dif_pos hi, ho]
  dsimp only
  split
  · next e' h =>
    cases he.symm.trans h
    rfl
  · next h => cases he.symm.trans h

theorem scanFrom_of_open (ho : c.statement.opens = some b)
    (he : (p.slice (i + 1) p.length).closer? b = none) : p.scanFrom i = some (i, b) := by
  obtain ⟨hi, rfl⟩ := List.getElem?_eq_some_iff.mp hc
  rw [scanFrom, dif_pos hi, ho]
  dsimp only
  split
  · next e' h =>
    obtain ⟨k, hk, -⟩ := findCloser_eq_ok_iff.mp h
    cases he.symm.trans hk
  · rfl

end Walk

theorem scanFrom_eq_none_iff (p : Program) (i : Nat) :
    p.scanFrom i = none ↔ Balanced (p.drop i) := by
  have hslice : ∀ i, p.slice i p.length = p.drop i := fun i => by rw [slice, List.take_length]
  fun_induction scanFrom p i with
  | case1 i hi ho ih =>
    refine ih.trans ?_
    rw [List.drop_eq_getElem_cons hi, balanced_cons_iff ho]
  | case2 i hi b ho e he ih =>
    obtain ⟨k, hk, rfl⟩ := findCloser_eq_ok_iff.mp he
    rw [hslice] at hk
    refine ih.trans ?_
    rw [List.drop_eq_getElem_cons hi, balanced_block_iff ho hk, List.drop_drop]
    rfl
  | case3 i hi b ho e he =>
    rw [List.drop_eq_getElem_cons hi]
    refine ⟨fun h => absurd h (by simp), fun h => ?_⟩
    obtain ⟨k, hk, -⟩ := h.closer? ho
    rw [← hslice] at hk
    cases he.symm.trans (findCloser_eq_ok_iff.mpr ⟨k, hk, rfl⟩)
  | case4 i hi =>
    rw [List.drop_eq_nil_of_le (Nat.not_lt.mp hi)]
    exact ⟨fun _ => balanced_nil, fun _ => rfl⟩

/-- The scan stops nowhere exactly if the program is balanced. -/
theorem scan_eq_none_iff {p : Program} : p.scan = none ↔ p.Balanced := scanFrom_eq_none_iff p 0

theorem findCloser_length_of_limit {i limit e : Nat} {b : Block} (hl : limit ≤ p.length)
    (h : p.findCloser i b limit = .ok e) : p.findCloser i b p.length = .ok e := by
  obtain ⟨k, hk, rfl⟩ := findCloser_eq_ok_iff.mp h
  refine findCloser_eq_ok_iff.mpr ⟨k, ?_, rfl⟩
  have hlt := lt_length_of_closer? hk
  have hs : p.slice (i + 1) p.length = p.slice (i + 1) limit ++ p.drop limit := by
    unfold slice at hlt ⊢
    rw [List.length_drop, List.length_take] at hlt
    rw [List.take_length]
    conv_lhs => rw [← List.take_append_drop limit p]
    rw [List.drop_append_of_le_length (by rw [List.length_take]; omega)]
  rw [hs]
  exact closer?_append hk _

end LineScript.Program
