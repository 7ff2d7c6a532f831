import LineScript.Proofs.Machine.Running
import LineScript.Proofs.Reading
import LineScript.Proofs.Table

/-! # Independence of line numbers

Programs that differ in their line numbers only have the same blocks, and do the same: a run that
starts with fewer steps counted, with an output of its own, and with functions that may be numbered
differently tracks the other run as long as that one succeeds. Only diagnostics show line numbers,
so the outputs agree for as long as none is reported.
-/

namespace LineScript

def Command.content (c : Command) : Text × Statement := (c.line.text, c.statement)

namespace Program

/-- The programs differ in their line numbers only. -/
def Alike (p q : Program) : Prop := p.map Command.content = q.map Command.content

namespace Alike

variable {p q : Program} {c : Command}

theorem exists_cons (h : Alike (c :: p) q) :
    ∃ d q', q = d :: q' ∧ d.content = c.content ∧ Alike p q' := by
  cases q with
  | nil => cases h
  | cons d q =>
    obtain ⟨hc, hp⟩ := List.cons_eq_cons.mp h
    exact ⟨d, q, rfl, hc.symm, hp⟩

theorem take (h : Alike p q) (n : Nat) : Alike (p.take n) (q.take n) := by
  unfold Alike at *
  rw [List.map_take, List.map_take, h]

theorem drop (h : Alike p q) (n : Nat) : Alike (p.drop n) (q.drop n) := by
  unfold Alike at *
  rw [List.map_drop, List.map_drop, h]

theorem slice (h : Alike p q) (start stop : Nat) :
    Alike (p.slice start stop) (q.slice start stop) := (h.take stop).drop start

theorem length_eq (h : Alike p q) : p.length = q.length := by
  simpa using congrArg List.length h

theorem texts_lines (h : Alike p q) : p.lines.map Line.text = q.lines.map Line.text := by
  have ht := congrArg (List.map Prod.fst) h
  simpa [Program.lines, Command.content, Function.comp_def] using ht

theorem topLevelFrom (h : Alike p q) (s : Stack) (i : Nat) :
    Program.topLevelFrom s i p = Program.topLevelFrom s i q := by
  induction p generalizing q s i with
  | nil =>
    cases q with
    | nil => rfl
    | cons d q => cases h
  | cons c p ih =>
    obtain ⟨d, q, rfl, hd, h⟩ := h.exists_cons
    have hs : d.statement = c.statement := congrArg Prod.snd hd
    rw [Program.topLevelFrom, Program.topLevelFrom, hs, ih h]

theorem topLevel (h : Alike p q) : p.topLevel = q.topLevel := h.topLevelFrom [] 0

theorem closer? (h : Alike p q) (b : Block) : p.closer? b = q.closer? b := by
  rw [closer?_eq_find?, closer?_eq_find?, h.topLevel]

theorem otherwise? (h : Alike p q) : p.otherwise? = q.otherwise? := by
  unfold Program.otherwise?
  rw [h.topLevel]

theorem arms (h : Alike p q) : p.arms = q.arms := by
  unfold Program.arms Program.markers
  rw [h.topLevel, h.length_eq]

end Alike

theorem alike_of_texts {ls ls' : List Line} {p : Program}
    (h : ls.map Line.text = ls'.map Line.text) (hp : ofLines ls = .ok p) :
    ∃ q, ofLines ls' = .ok q ∧ Alike p q := by
  induction ls generalizing ls' p with
  | nil =>
    cases ls' with
    | cons l ls' => cases h
    | nil =>
      cases hp
      exact ⟨[], rfl, rfl⟩
  | cons l ls ih =>
    cases ls' with
    | nil => cases h
    | cons l' ls' =>
      obtain ⟨ht, hts⟩ := List.cons_eq_cons.mp h
      obtain ⟨c, r, hc, hr, rfl⟩ := ofLines_cons_eq_ok_iff.mp hp
      obtain ⟨rfl, hs⟩ := Command.ofLine_eq_ok_iff.mp hc
      obtain ⟨q, hq, ha⟩ := ih hts hr
      have hc' : Command.ofLine l' = .ok ⟨l', c.statement⟩ :=
        Command.ofLine_eq_ok_iff.mpr ⟨rfl, ht ▸ hs⟩
      refine ⟨⟨l', c.statement⟩ :: q, ofLines_cons_eq_ok_iff.mpr ⟨_, q, hc', hq, rfl⟩, ?_⟩
      have hct : c.content = (⟨l', c.statement⟩ : Command).content := by
        unfold Command.content
        rw [ht]
      exact List.cons_eq_cons.mpr ⟨hct, ha⟩

end Program

end LineScript
