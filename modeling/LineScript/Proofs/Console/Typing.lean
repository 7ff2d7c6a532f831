import LineScript.Console.Dialogue
import LineScript.Proofs.Console.Brackets

/-! # Typing lines

What comes of a typed line: it is passed over, it is kept in the draft, or it releases a program,
which is run. The runs made for a list of lines are what the terminal sees written.
-/

namespace LineScript

def Transcript.writes (t : Transcript) : List Text :=
  t.log.filterMap fun
    | .write text => some text
    | _ => none

namespace Dialogue

/-- The run that a typed line brings about, if it releases a program. -/
def report? (g : Guard) (d : Dialogue) (line : Text) : Option Report :=
  if d.draft.isEmpty && Text.trim line == resetLine then none
  else (d.draft.push line).1.map (Session.run g d.session)

def after (g : Guard) (d : Dialogue) (lines : List Text) : Dialogue :=
  lines.foldl (fun d line => (d.typed g line).1) d

/-- The runs that lines bring about as they are typed. -/
def reports (g : Guard) (d : Dialogue) : List Text → List Report
  | [] => []
  | line :: lines => (d.report? g line).toList ++ reports g (d.typed g line).1 lines

variable {g : Guard} {line : Text}

theorem writes_typed (g : Guard) (d : Dialogue) (line : Text) :
    ((d.typed g line).2.filterMap fun
      | .write text => some text
      | _ => none) = (d.report? g line).toList.map fun r => written r.result := by
  unfold typed report? push
  dsimp only
  split
  · split <;> rfl
  · cases hp : d.draft.push line with
    | mk program draft =>
      cases program <;> (dsimp only; split <;> rfl)

theorem play_typed (g : Guard) (d : Dialogue) (lines : List Text) :
    (play g d (lines.map .typed)).dialogue = d.after g lines ∧
      (play g d (lines.map .typed)).result = .ok () ∧
      (play g d (lines.map .typed)).writes = (d.reports g lines).map fun r => written r.result := by
  induction lines generalizing d with
  | nil => exact ⟨rfl, rfl, rfl⟩
  | cons line lines ih =>
    obtain ⟨hd, hr, hw⟩ := ih (d.typed g line).1
    refine ⟨hd, hr, ?_⟩
    rw [reports, List.map_append, ← hw, ← writes_typed]
    exact List.filterMap_append

theorem start_typed (g : Guard) (lines : List Text) :
    (start g none (lines.map .typed)).dialogue = after g {} lines ∧
      (start g none (lines.map .typed)).result = .ok () ∧
      (start g none (lines.map .typed)).writes =
        (reports g {} lines).map fun r => written r.result := play_typed g {} lines

section Steps

open Text

variable {s : Session} {held : List Text} {depth : Nat}

theorem typed_of_blank (ht : trim line = []) :
    (typed g ⟨s, {}⟩ line).1 = ⟨s, {}⟩ ∧ report? g ⟨s, {}⟩ line = none := by
  have hp : Draft.push {} line = (none, {}) := by
    simp [Draft.push, Line.ofText, Line.isEmpty, Draft.isEmpty, ht]
  have hr : (trim line == resetLine) = false := by
    rw [ht]
    rfl
  unfold typed report? push
  simp [hp, hr]

theorem isEmpty_joined : (joined held).isEmpty = held.isEmpty := by
  cases held <;> simp [joined]

theorem push_joined (hb : held ≠ [] ∨ trim line ≠ []) :
    Draft.push ⟨joined held, depth⟩ line =
      if Draft.depthAfter depth (Statement.edge? (trim line)) = 0 then
        (some (joined (held ++ [line])), {})
      else (none,
        ⟨joined (held ++ [line]), Draft.depthAfter depth (Statement.edge? (trim line))⟩) := by
  have hn : ((Line.ofText 0 line).isEmpty && Draft.isEmpty ⟨joined held, depth⟩) = false := by
    rcases hb with hb | hb
    · simp [Draft.isEmpty, isEmpty_joined, hb]
    · simp [Line.ofText, Line.isEmpty, hb]
  unfold Draft.push
  dsimp only
  rw [hn, joined_append_singleton]
  rfl

theorem not_reset (hr : held = [] → trim line ≠ resetLine) :
    (Draft.isEmpty ⟨joined held, depth⟩ && trim line == resetLine) = false := by
  by_cases hh : held = []
  · simp [hr hh]
  · simp [Draft.isEmpty, isEmpty_joined, hh]

variable (hb : held ≠ [] ∨ trim line ≠ []) (hr : held = [] → trim line ≠ resetLine)

include hb hr

theorem typed_of_held (hn : Draft.depthAfter depth (Statement.edge? (trim line)) ≠ 0) :
    (typed g ⟨s, ⟨joined held, depth⟩⟩ line).1 =
        ⟨s, ⟨joined (held ++ [line]), Draft.depthAfter depth (Statement.edge? (trim line))⟩⟩ ∧
      report? g ⟨s, ⟨joined held, depth⟩⟩ line = none := by
  unfold typed report? push
  dsimp only
  rw [not_reset hr, push_joined hb, if_neg hn]
  exact ⟨rfl, rfl⟩

theorem typed_of_released (hn : Draft.depthAfter depth (Statement.edge? (trim line)) = 0) :
    (typed g ⟨s, ⟨joined held, depth⟩⟩ line).1 =
        ⟨(Session.run g s (joined (held ++ [line]))).session, {}⟩ ∧
      report? g ⟨s, ⟨joined held, depth⟩⟩ line =
        some (Session.run g s (joined (held ++ [line]))) := by
  unfold typed report? push
  dsimp only
  rw [not_reset hr, push_joined hb, if_pos hn]
  exact ⟨rfl, rfl⟩

end Steps

end Dialogue

end LineScript
