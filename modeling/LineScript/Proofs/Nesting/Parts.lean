import Mathlib.Data.List.Intervals
import LineScript.Proofs.Nesting.Grammar

/-! # The parts of a block

The `WHEN` and `ELSE` lines that stand directly in a block divide its text. Nothing is lost: the
lines before the first of them, they themselves, and the arms that they begin make up the text.
Nothing is cut: a block that begins in one of the parts ends in it.
-/

namespace LineScript

namespace Arm

def marker (a : Arm) : Nat := a.start - 1

theorem label?_eq_some_iff {st : Statement} {label : Option Text} :
    label? st = some label ↔ st = .marker label := by
  constructor
  · intro h
    cases st <;> cases h <;> rfl
  · rintro rfl
    exact (Statement.isPlain_marker label).2.2

theorem map_ofMarkers (stop : Nat) (ms : List (Nat × Option Text)) :
    (ofMarkers stop ms).map (fun a => (a.marker, a.label)) = ms := by
  induction ms with
  | nil => rfl
  | cons m ms ih => rw [ofMarkers_cons, List.map_cons, ih]; rfl

theorem ofMarkers_map_add (k stop : Nat) (ms : List (Nat × Option Text)) :
    ofMarkers (k + stop) (ms.map fun x => (k + x.1, x.2)) =
      (ofMarkers stop ms).map fun a => ⟨a.label, k + a.start, k + a.stop⟩ := by
  induction ms with
  | nil => rfl
  | cons m ms ih =>
    have hstop : ((ms.map fun x => (k + x.1, x.2)).head?.map Prod.fst).getD (k + stop) =
        k + (ms.head?.map Prod.fst).getD stop := by
      cases ms <;> rfl
    rw [List.map_cons, ofMarkers_cons, ofMarkers_cons, List.map_cons, ih, hstop]
    rfl

/-- What precedes the first marker, the markers and the arms are all positions, each once. -/
theorem ico_eq_ofMarkers {lo stop : Nat} {ms : List (Nat × Option Text)}
    (hs : ms.Pairwise (·.1 < ·.1)) (hlo : ∀ x ∈ ms, lo ≤ x.1) (hstop : ∀ x ∈ ms, x.1 < stop) :
    List.Ico lo stop = List.Ico lo ((ms.head?.map Prod.fst).getD stop) ++
      (ofMarkers stop ms).flatMap fun a => a.marker :: List.Ico a.start a.stop := by
  induction ms generalizing lo with
  | nil => simp [ofMarkers]
  | cons m ms ih =>
    obtain ⟨hm, hs⟩ := List.pairwise_cons.mp hs
    obtain ⟨hlo, -⟩ := List.forall_mem_cons.mp hlo
    obtain ⟨hlt, hstop⟩ := List.forall_mem_cons.mp hstop
    calc List.Ico lo stop
        = List.Ico lo m.1 ++ m.1 :: List.Ico (m.1 + 1) stop := by
          rw [← List.Ico.eq_cons hlt, List.Ico.append_consecutive hlo (Nat.le_of_lt hlt)]
      _ = _ := by
          rw [ih hs hm hstop, ofMarkers_cons]
          simp [marker]

end Arm

namespace Program

variable {p : Program} {start stop : Nat}

theorem slice_slice (p : Program) {lo hi i j : Nat} (h : lo + j ≤ hi) :
    slice (p.slice lo hi) i j = p.slice (lo + i) (lo + j) := by
  rw [slice, take_slice p h]
  unfold slice
  rw [List.drop_drop]

theorem length_slice (p : Program) (lo hi : Nat) :
    (p.slice lo hi).length = min hi p.length - lo := by
  rw [slice, List.length_drop, List.length_take]

theorem slice_self (p : Program) (i : Nat) : p.slice i i = [] :=
  List.drop_eq_nil_of_le (List.length_take_le i p)

theorem slice_whole (p : Program) : p.slice 0 p.length = p := by
  rw [slice, List.take_length, List.drop_zero]

theorem drop_slice (p : Program) (lo hi n : Nat) :
    (p.slice lo hi).drop n = p.slice (lo + n) hi := by
  unfold slice
  rw [List.drop_drop]

theorem slice_append_slice (p : Program) {lo i hi : Nat} (hlo : lo ≤ i) (hle : i ≤ hi)
    (hl : hi ≤ p.length) : p.slice lo i ++ p.slice i hi = p.slice lo hi := by
  have hlen : lo ≤ (p.take i).length := by
    rw [List.length_take]
    omega
  change _ = (p.take hi).drop lo
  rw [take_eq_append_slice p hle, List.drop_append_of_le_length hlen]
  rfl

theorem slice_eq_cons {i hi : Nat} {c : Command} (h : p[i]? = some c) (hlt : i < hi) :
    p.slice i hi = c :: p.slice (i + 1) hi := by
  obtain ⟨hl, rfl⟩ := List.getElem?_eq_some_iff.mp h
  have hlen : i < (p.take hi).length := by
    rw [List.length_take]
    omega
  unfold slice
  rw [List.drop_eq_getElem_cons hlen, List.getElem_take]

/-- How many of the blocks that were opened from position `start` on are open at position `i`. -/
def depth (p : Program) (start i : Nat) : Nat := (Stack.through [] (p.slice start i)).length

theorem depth_eq_zero_iff {i : Nat} : p.depth start i = 0 ↔ Balanced (p.slice start i) :=
  List.length_eq_zero_iff

/-- The top level consists of the commands at which no block is open. -/
theorem mem_topLevel_iff {i : Nat} {st : Statement} :
    (i, st) ∈ p.topLevel ↔ p.IsCut i ∧ ∃ c, p[i]? = some c ∧ c.statement = st := by
  constructor
  · intro h
    obtain ⟨p₁, c, p₂, rfl, hx, ht⟩ := exists_of_mem_topLevelFrom h
    simp only [Prod.mk.injEq, Nat.zero_add] at hx
    obtain ⟨rfl, rfl⟩ := hx
    exact ⟨isCut_of_append ht _, c, by simp, rfl⟩
  · rintro ⟨hcut, c, hget, rfl⟩
    obtain ⟨hlt, rfl⟩ := List.getElem?_eq_some_iff.mp hget
    have hi : 0 + (p.take i).length = i := by
      rw [List.length_take]
      omega
    have ht := topLevelFrom_append [] 0 (p.take i) (p.drop i)
    rw [List.take_append_drop, show Stack.through [] (p.take i) = [] from hcut, hi,
      List.drop_eq_getElem_cons hlt] at ht
    unfold topLevel
    rw [ht, List.mem_append]
    exact .inr (by simp [topLevelFrom])

theorem mem_markers_iff {i : Nat} {label : Option Text} :
    (i, label) ∈ p.markers ↔ p.IsCut i ∧ ∃ c, p[i]? = some c ∧ c.statement = .marker label := by
  rw [← mem_topLevel_iff]
  unfold markers
  rw [List.mem_filterMap]
  constructor
  · rintro ⟨⟨j, st⟩, hm, hl⟩
    obtain ⟨label', hst, hx⟩ := Option.map_eq_some_iff.mp hl
    cases hx
    exact Arm.label?_eq_some_iff.mp hst ▸ hm
  · intro hm
    exact ⟨_, hm, by simp [(Statement.isPlain_marker label).2.2]⟩

theorem otherwise?_eq_find?_markers (p : Program) :
    p.otherwise? = (p.markers.find? (·.2 == none)).map Prod.fst := by
  unfold otherwise? markers
  induction p.topLevel with
  | nil => rfl
  | cons x xs ih =>
    obtain ⟨i, st⟩ := x
    cases st <;> simp_all [Arm.label?]

/-- The positions of the `WHEN` and `ELSE` lines of a block that spans `start` to `stop`. -/
def marks (p : Program) (start stop : Nat) : List (Nat × Option Text) :=
  (p.slice (start + 1) stop).markers.map fun x => (start + 1 + x.1, x.2)

theorem pairwise_marks (p : Program) (start stop : Nat) :
    (p.marks start stop).Pairwise (·.1 < ·.1) :=
  (pairwise_markers _).map _ fun _ _ h => Nat.add_lt_add_left h _

theorem mem_marks_iff {i : Nat} {label : Option Text} :
    (i, label) ∈ p.marks start stop ↔ start < i ∧ i < stop ∧ p.depth (start + 1) i = 0 ∧
      ∃ c, p[i]? = some c ∧ c.statement = .marker label := by
  unfold marks
  rw [List.mem_map]
  constructor
  · rintro ⟨⟨j, _⟩, hm, hx⟩
    cases hx
    obtain ⟨hcut, c, hget, hc⟩ := mem_markers_iff.mp hm
    rw [getElem?_slice] at hget
    split at hget
    · next hlt =>
      unfold IsCut at hcut
      rw [take_slice p (Nat.le_of_lt hlt)] at hcut
      exact ⟨by omega, hlt, depth_eq_zero_iff.mpr hcut, c, hget, hc⟩
    · cases hget
  · rintro ⟨hstart, hlt, hd, c, hget, hc⟩
    obtain ⟨j, rfl⟩ := Nat.exists_eq_add_of_le (Nat.succ_le_of_lt hstart)
    refine ⟨(j, label), mem_markers_iff.mpr ⟨?_, c, ?_, hc⟩, rfl⟩
    · unfold IsCut
      rw [take_slice p (Nat.le_of_lt hlt)]
      exact depth_eq_zero_iff.mp hd
    · rw [getElem?_slice, if_pos hlt, hget]

theorem findArms_eq (hs : start < stop) (hl : stop ≤ p.length) :
    p.findArms start stop = Arm.ofMarkers stop (p.marks start stop) := by
  have hlen : start + 1 + (p.slice (start + 1) stop).length = stop := by
    rw [length_slice]
    omega
  have h := Arm.ofMarkers_map_add (start + 1) (p.slice (start + 1) stop).length
    (p.slice (start + 1) stop).markers
  rw [hlen] at h
  exact h.symm

theorem findOtherwise_eq (p : Program) (start stop : Nat) :
    p.findOtherwise start stop = ((p.marks start stop).find? (·.2 == none)).map Prod.fst := by
  unfold findOtherwise marks
  rw [otherwise?_eq_find?_markers, List.find?_map]
  simp [Option.map_map, Function.comp_def]

/-- The parts of a block that spans `start` to `stop`: its arms, or the halves around its `ELSE`. -/
inductive IsPart (p : Program) (start stop : Nat) : Nat → Nat → Prop where
  | arm {a : Arm} : a ∈ p.findArms start stop → IsPart p start stop a.start a.stop
  | first {i : Nat} : p.findOtherwise start stop = some i → IsPart p start stop (start + 1) i
  | second {i : Nat} : p.findOtherwise start stop = some i → IsPart p start stop (i + 1) stop

theorem IsPart.balanced {lo hi : Nat} (h : IsPart p start stop lo hi) (hs : start < stop)
    (hl : stop ≤ p.length) (hb : Balanced (p.slice (start + 1) stop)) :
    hi ≤ stop ∧ Balanced (p.slice lo hi) := by
  have hlen : start + 1 + (p.slice (start + 1) stop).length = stop := by
    unfold slice
    rw [List.length_drop, List.length_take]
    omega
  have hpart {i j : Nat} (hij : i ≤ j) (hj : j ≤ (p.slice (start + 1) stop).length)
      (hi : (p.slice (start + 1) stop).IsCut i) (hj' : (p.slice (start + 1) stop).IsCut j) :
      start + 1 + j ≤ stop ∧ Balanced (p.slice (start + 1 + i) (start + 1 + j)) := by
    refine ⟨by omega, ?_⟩
    rw [← slice_slice p (show start + 1 + j ≤ stop by omega)]
    exact hi.balanced_slice hj' hij
  cases h with
  | arm ha =>
    obtain ⟨a, hmem, rfl⟩ := List.mem_map.mp ha
    obtain ⟨hle, hstop, hi, hj⟩ := hb.isCut_of_mem_arms hmem
    exact hpart hle hstop hi hj
  | first h =>
    obtain ⟨i, hi, rfl⟩ := Option.map_eq_some_iff.mp h
    obtain ⟨hlt, hcut, -⟩ := isCut_of_otherwise? hi
    exact hpart (Nat.zero_le i) (Nat.le_of_lt hlt) (isCut_zero _) hcut
  | second h =>
    obtain ⟨i, hi, rfl⟩ := Option.map_eq_some_iff.mp h
    obtain ⟨hlt, -, hcut⟩ := isCut_of_otherwise? hi
    have hlast := hpart (Nat.succ_le_of_lt hlt) (Nat.le_refl _) hcut (isCut_length hb)
    rwa [hlen] at hlast

theorem findCloser_of_balanced {lo hi i : Nat} {c : Command} {k : Block} (hhi : hi ≤ p.length)
    (hb : Balanced (p.slice lo hi)) (hlo : lo ≤ i) (hlt : i < hi) (hd : p.depth lo i = 0)
    (hc : p[i]? = some c) (ho : c.statement.opens = some k) :
    ∃ e, p.findCloser i k hi = .ok e ∧ p.findCloser i k p.length = .ok e ∧ e < hi := by
  rw [← slice_append_slice p hlo (Nat.le_of_lt hlt) hhi,
    Balanced.append_iff (depth_eq_zero_iff.mp hd), slice_eq_cons hc hlt] at hb
  obtain ⟨j, hj, -⟩ := Balanced.closer? hb ho
  have he := findCloser_eq_ok_iff.mpr ⟨j, hj, rfl⟩
  exact ⟨_, he, findCloser_length_of_limit hhi he, (lt_of_findCloser he).2⟩

theorem balanced_of_findCloser {b : Block} {limit : Nat}
    (h : p.findCloser start b limit = .ok stop) : Balanced (p.slice (start + 1) stop) :=
  (items_iff.mp (findCloser_eq_ok_iff_endsAt.mp h).items).balanced

/--
Dividing a block loses nothing and cuts no block inside it. The arms begin, in increasing order, at
the `WHEN` and `ELSE` lines at depth zero; the lines before the first of these, they, and the arms
are all lines of the text, each once; and the `ELSE` of the block is the first one among them. If
the text is that of a block, then the closer of a header at depth zero of a part lies in the part,
and a search up to the end of the part finds it as one through the whole program does.
-/
theorem parts_of_block (hs : start < stop) (hl : stop ≤ p.length) :
    let arms := p.findArms start stop
    arms.Pairwise (·.marker < ·.marker) ∧
    (∀ i label, (∃ a ∈ arms, a.marker = i ∧ a.label = label) ↔
      start < i ∧ i < stop ∧ p.depth (start + 1) i = 0 ∧
        ∃ c, p[i]? = some c ∧ c.statement = .marker label) ∧
    List.Ico (start + 1) stop = List.Ico (start + 1) ((arms.head?.map Arm.marker).getD stop) ++
      arms.flatMap (fun a => a.marker :: List.Ico a.start a.stop) ∧
    p.findOtherwise start stop = (arms.find? (·.label == none)).map Arm.marker ∧
    ∀ b limit, p.findCloser start b limit = .ok stop → ∀ lo hi, p.IsPart start stop lo hi →
      ∀ i c k, lo ≤ i → i < hi → p.depth lo i = 0 → p[i]? = some c → c.statement.opens = some k →
        ∃ e, p.findCloser i k hi = .ok e ∧ p.findCloser i k p.length = .ok e ∧ e < hi := by
  intro arms
  have harms : arms = Arm.ofMarkers stop (p.marks start stop) := findArms_eq hs hl
  have hmap : arms.map (fun a => (a.marker, a.label)) = p.marks start stop := by
    rw [harms, Arm.map_ofMarkers]
  refine ⟨?_, fun i label => ?_, ?_, ?_, fun b limit hclose lo hi hpart => ?_⟩
  · have hp := pairwise_marks p start stop
    rwa [← hmap, List.pairwise_map] at hp
  · rw [← mem_marks_iff, ← hmap, List.mem_map]
    simp only [Prod.mk.injEq]
  · have hfirst : arms.head?.map Arm.marker = (p.marks start stop).head?.map Prod.fst := by
      rw [← hmap, List.head?_map, Option.map_map]
      rfl
    rw [hfirst, harms]
    refine Arm.ico_eq_ofMarkers (pairwise_marks p start stop) ?_ ?_
    · exact fun x hx => (mem_marks_iff.mp hx).1
    · exact fun x hx => (mem_marks_iff.mp hx).2.1
  · rw [findOtherwise_eq, ← hmap, List.find?_map]
    simp [Option.map_map, Function.comp_def]
  · obtain ⟨hhi, hb⟩ := hpart.balanced hs hl (balanced_of_findCloser hclose)
    exact fun i c k => findCloser_of_balanced (Nat.le_trans hhi hl) hb

/-- A selection with a line before its arms, an inner `ELSE`, and a closer that does not fit. -/
theorem parts_of_selection :
    ∃ p : Program, ofText ("REVELATION_CASE X\nCALL F\nWHEN \"A\" THEN\nIF X = 1 THEN\nELSE\n" ++
        "ENDIF\nELSE\nENDIF\nELSE\nENDCASE").toList = .ok p ∧
      p.findCloser 0 .selection 10 = .ok 9 ∧
      p.findArms 0 9 = [⟨some ['A'], 3, 6⟩, ⟨none, 7, 8⟩, ⟨none, 9, 9⟩] ∧
      List.Ico 1 9 = List.Ico 1 2 ++ (2 :: List.Ico 3 6 ++ 6 :: List.Ico 7 8 ++ 8 :: List.Ico 9 9) ∧
      p.findOtherwise 0 9 = some 6 ∧
      ∃ e, p.findCloser 3 .conditional 6 = .ok e ∧ p.findCloser 3 .conditional 10 = .ok e ∧
        e < 6 := by
  let p : Program :=
    [⟨⟨1, "REVELATION_CASE X".toList⟩, .caseOf ['X']⟩,
      ⟨⟨2, "CALL F".toList⟩, .call ['F']⟩,
      ⟨⟨3, "WHEN \"A\" THEN".toList⟩, .when ['A']⟩,
      ⟨⟨4, "IF X = 1 THEN".toList⟩, .ifThen (.compare ['X'] .equal ['1'])⟩,
      ⟨⟨5, "ELSE".toList⟩, .otherwise⟩,
      ⟨⟨6, "ENDIF".toList⟩, .close .conditional⟩,
      ⟨⟨7, "ELSE".toList⟩, .otherwise⟩,
      ⟨⟨8, "ENDIF".toList⟩, .close .conditional⟩,
      ⟨⟨9, "ELSE".toList⟩, .otherwise⟩,
      ⟨⟨10, "ENDCASE".toList⟩, .close .selection⟩]
  have harms : p.findArms 0 9 = [⟨some ['A'], 3, 6⟩, ⟨none, 7, 8⟩, ⟨none, 9, 9⟩] := by decide
  have hclose : p.findCloser 0 .selection 10 = .ok 9 := by decide
  obtain ⟨-, -, hcover, hother, hinner⟩ :=
    parts_of_block (show 0 < 9 by decide) (show 9 ≤ p.length by decide)
  rw [harms] at hcover hother
  have harm : p.IsPart 0 9 3 6 := .arm (a := ⟨some ['A'], 3, 6⟩) (by rw [harms]; decide)
  refine ⟨p, by decide +kernel, hclose, harms, hcover, hother, ?_⟩
  exact hinner .selection 10 hclose 3 6 harm 3 _ .conditional (by decide) (by decide) (by decide)
    rfl rfl

end Program

end LineScript
