import LineScript.Proofs.Nesting.Enclosure
import LineScript.Proofs.Reading
import LineScript.Proofs.Tree.Basic

/-! # Flattened trees

What the scans of the nesting find in a flattened tree is what the tree has there: the text of a
forest is self-contained and has no markers, and the arms that are cut out of the text of a
selection are the flattened arms of the tree. A flattening can be read again from its lines.
-/

namespace LineScript

open Program

@[simp] theorem LineOf.statement_command {s : Statement} (l : LineOf s) :
    l.command.statement = s := rfl

theorem Simple.isPlain (s : Simple) :
    s.statement.opens = none ∧ s.statement.closes = none ∧ Arm.label? s.statement = none := by
  cases s <;> exact ⟨rfl, rfl, rfl⟩

namespace Program.SelfContained

variable {p q : Program} {label : Option Text}

theorem append_marker (hp : SelfContained p) (marker : LineOf (.marker label))
    (hq : SelfContained q) : SelfContained (p ++ marker.command :: q) := by
  obtain ⟨ho, hc, -⟩ := Statement.isPlain_marker label
  have hm : SelfContained [marker.command] := .plain ho hc
  simpa using hp.append (hm.append hq)

end Program.SelfContained

mutual

theorem Tree.selfContained_flatten (t : Tree) : SelfContained t.flatten ∧ Unmarked t.flatten := by
  cases t with
  | simple s l =>
    obtain ⟨ho, hc, hl⟩ := s.isPlain
    exact ⟨.plain ho hc, .plain hl⟩
  | conditional condition header yes closer =>
    obtain ⟨hy, -⟩ := yes.selfContained_flatten
    exact ⟨.block rfl hy rfl, .block rfl hy _⟩
  | alternative condition header yes divider no closer =>
    obtain ⟨hy, -⟩ := yes.selfContained_flatten
    obtain ⟨hn, -⟩ := no.selfContained_flatten
    have hb : SelfContained (yes.flatten ++ divider.command :: no.flatten) :=
      hy.append_marker (show LineOf (.marker none) from divider) hn
    exact ⟨.block rfl hb rfl, .block rfl hb _⟩
  | selection name header prelude arms closer =>
    obtain ⟨hp, -⟩ := prelude.selfContained_flatten
    have hb := hp.append arms.selfContained_flatten
    exact ⟨.block rfl hb rfl, .block rfl hb _⟩
  | definition name header body closer =>
    obtain ⟨hb, -⟩ := body.selfContained_flatten
    exact ⟨.block rfl hb rfl, .block rfl hb _⟩

theorem Forest.selfContained_flatten (f : Forest) :
    SelfContained f.flatten ∧ Unmarked f.flatten := by
  cases f with
  | nil => exact ⟨.nil, .nil⟩
  | cons t f =>
    obtain ⟨ht, hut⟩ := t.selfContained_flatten
    obtain ⟨hf, huf⟩ := f.selfContained_flatten
    exact ⟨ht.append hf, hut.append ht huf⟩

theorem Arms.selfContained_flatten (a : Arms) : SelfContained a.flatten := by
  cases a with
  | nil => exact .nil
  | cons label marker body arms =>
    obtain ⟨hb, -⟩ := body.selfContained_flatten
    exact SelfContained.nil.append_marker marker (hb.append arms.selfContained_flatten)

end

theorem LineOf.isRead {s : Statement} (l : LineOf s) : IsRead [l.command] := by
  intro c hc
  rw [List.mem_singleton] at hc
  subst hc
  exact l.reads

theorem Program.IsRead.append {p q : Program} (hp : p.IsRead) (hq : q.IsRead) :
    IsRead (p ++ q) := by
  intro c hc
  rcases List.mem_append.mp hc with hc | hc
  · exact hp c hc
  · exact hq c hc

mutual

theorem Tree.isRead_flatten (t : Tree) : t.flatten.IsRead := by
  cases t with
  | simple s l => exact l.isRead
  | conditional condition header yes closer =>
    exact header.isRead.append (yes.isRead_flatten.append closer.isRead)
  | alternative condition header yes divider no closer =>
    have hn := divider.isRead.append no.isRead_flatten
    exact header.isRead.append ((yes.isRead_flatten.append hn).append closer.isRead)
  | selection name header prelude arms closer =>
    have ha := prelude.isRead_flatten.append arms.isRead_flatten
    exact header.isRead.append (ha.append closer.isRead)
  | definition name header body closer =>
    exact header.isRead.append (body.isRead_flatten.append closer.isRead)

theorem Forest.isRead_flatten (f : Forest) : f.flatten.IsRead := by
  cases f with
  | nil => simp [Forest.flatten, IsRead]
  | cons t f => exact t.isRead_flatten.append f.isRead_flatten

theorem Arms.isRead_flatten (a : Arms) : a.flatten.IsRead := by
  cases a with
  | nil => simp [Arms.flatten, IsRead]
  | cons label marker body arms =>
    exact marker.isRead.append (body.isRead_flatten.append arms.isRead_flatten)

end

theorem Forest.ofLines_lines (f : Forest) : ofLines f.lines = .ok f.flatten :=
  f.isRead_flatten.ofLines_lines

theorem Program.slice_append_append (p q r : Program) :
    slice (p ++ (q ++ r)) p.length (p ++ q).length = q := by
  unfold slice
  rw [← List.append_assoc, List.take_left, List.drop_left]

namespace Arms

/-- The range `x` of the text `p` has the label and the commands of the arm `y` of a tree. -/
def Matches (p : Program) (x : Arm) (y : Option Text × Forest) : Prop :=
  x.label = y.1 ∧ p.slice x.start x.stop = y.2.flatten

theorem markers_cons (label : Option Text) (marker : LineOf (.marker label)) (body : Forest)
    (arms : Arms) :
    (cons label marker body arms).flatten.markers =
      (0, label) :: arms.flatten.markers.map fun x => (x.1 + (body.flatten.length + 1), x.2) := by
  obtain ⟨hb, hu⟩ := body.selfContained_flatten
  obtain ⟨ho, hc, hl⟩ := Statement.isPlain_marker label
  have hm : SelfContained [marker.command] := .plain ho hc
  have hs : markers [marker.command] = [(0, label)] := by
    simp [markers, topLevel, topLevelFrom, hl]
  have he : (cons label marker body arms).flatten =
      ([marker.command] ++ body.flatten) ++ arms.flatten := by
    simp [Arms.flatten]
  rw [he, markers_append (hm.append hb), markers_append hm, hs, hu.markers]
  simp [Nat.add_comm]

theorem stop_eq (a : Arms) (k : Nat) :
    ((a.flatten.markers.map fun x => (x.1 + k, x.2)).head?.map Prod.fst).getD
      (k + a.flatten.length) = k := by
  cases a with
  | nil => simp [Arms.flatten, markers, topLevel, topLevelFrom]
  | cons label marker body arms =>
    rw [markers_cons]
    simp

theorem forall₂_ofMarkers (a : Arms) {pre : Program} (hpre : SelfContained pre) :
    List.Forall₂ (Matches (pre ++ a.flatten))
      (Arm.ofMarkers (pre ++ a.flatten).length
        (a.flatten.markers.map fun x => (x.1 + pre.length, x.2))) a.toList := by
  cases a with
  | nil => exact .nil
  | cons label marker body arms =>
    have he : pre ++ (cons label marker body arms).flatten =
        (pre ++ marker.command :: body.flatten) ++ arms.flatten := by
      simp [Arms.flatten]
    have hl : (pre ++ marker.command :: body.flatten).length =
        body.flatten.length + 1 + pre.length := by
      simp only [List.length_append, List.length_cons]
      omega
    have hmap : ((arms.flatten.markers.map fun x => (x.1 + (body.flatten.length + 1), x.2)).map
        fun x => (x.1 + pre.length, x.2)) = arms.flatten.markers.map fun x =>
          (x.1 + (pre ++ marker.command :: body.flatten).length, x.2) := by
      rw [List.map_map, hl]
      simp [Function.comp_def, Nat.add_assoc]
    have ih := arms.forall₂_ofMarkers
      (hpre.append_marker marker body.selfContained_flatten.1)
    have hstop := arms.stop_eq (pre ++ marker.command :: body.flatten).length
    rw [← List.length_append] at hstop
    rw [markers_cons, List.map_cons, hmap, Arm.ofMarkers_cons, he, hstop]
    refine .cons ⟨rfl, ?_⟩ ih
    have hs := slice_append_append (pre ++ [marker.command]) body.flatten arms.flatten
    simpa [Nat.add_comm] using hs

/-- The arms of the text of a selection are those of its tree. -/
theorem forall₂_arms (prelude : Forest) (a : Arms) :
    List.Forall₂ (Matches (prelude.flatten ++ a.flatten)) (arms (prelude.flatten ++ a.flatten))
      a.toList := by
  obtain ⟨hp, hu⟩ := prelude.selfContained_flatten
  unfold Program.arms
  rw [markers_append hp, hu.markers]
  exact a.forall₂_ofMarkers hp

end Arms

end LineScript
