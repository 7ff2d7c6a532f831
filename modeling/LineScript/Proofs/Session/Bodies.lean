import LineScript.Proofs.Session.Reachable

/-! # Function bodies

Every function body that a session keeps, and every one that is kept in the middle of a run, can
be read again and is balanced. The invariant of a run that carries this also says that all segments
under way were read from their lines, and that all of them but the whole program are balanced.
-/

namespace LineScript

/-- Every body can be read, and no block is left open in it. -/
def Functions.Sound (t : Functions) : Prop :=
  ∀ name body, t.get? name = some body → ∃ p, Program.ofLines body = .ok p ∧ p.Balanced

theorem Functions.Sound.empty : Functions.Sound {} := by
  intro name body h
  cases h

theorem Functions.Sound.insert {t : Functions} (h : Functions.Sound t) (name : Text)
    {body : Program} (hr : body.IsRead) (hb : body.Balanced) :
    Functions.Sound (t.insert name body.lines) := by
  intro name' body' hget
  rw [Table.get?_insert] at hget
  split at hget
  · cases hget
    exact ⟨body, hr.ofLines_lines, hb⟩
  · exact h name' body' hget

theorem Action.sound_functions {c : Command} {rest : Program} {m : Machine}
    (h : Functions.Sound m.functions) (hr : rest.IsRead) (g : Guard) :
    Functions.Sound (ofCommand g c rest m).machine.functions := by
  refine machine_ofCommand (P := fun m' => Functions.Sound m'.functions) h h fun _ _ m' hc => ?_
  cases hc with
  | define _ hs =>
    refine h.insert _ (hr.mono fun c hc => List.mem_of_mem_take hc) ?_
    exact Program.balanced_take_of_closer? hs
  | @decide condition _ => cases condition <;> exact h
  | _ => exact h

namespace Frame

/-- The frame's program was read, and what is left of an inner segment is balanced. -/
structure Sound (f : Frame) : Prop where
  isRead : f.program.IsRead
  limit_le : f.limit ≤ f.program.length
  balanced : f.scope ≠ .whole → f.segment.Balanced

variable {f : Frame} {c : Command} {rest : Program}

theorem Sound.isRead_rest (h : f.Sound) (hs : f.segment = c :: rest) : rest.IsRead :=
  h.isRead.mono fun _ hd => mem_program_of_segment hs (List.mem_cons_of_mem c hd)

theorem Sound.advance (h : f.Sound) (hs : f.segment = c :: rest) {n : Nat}
    (hn : c.Spans rest n) : (f.advance (n + 1)).Sound := by
  refine ⟨h.isRead, h.limit_le, fun hw => ?_⟩
  rw [segment_advance hs]
  exact hn.balanced (hs ▸ h.balanced hw)

end Frame

structure Point.Sound (pt : Point) : Prop where
  functions : Functions.Sound pt.machine.functions
  frames : ∀ f ∈ pt.frames, f.Sound

theorem Point.preserved_sound (g : Guard) :
    Preserved g (fun m => Functions.Sound m.functions) Frame.Sound where
  enter := fun scope _ h => by cases scope <;> exact h
  leave := fun scope _ h => by cases scope <;> exact h
  action := fun hs hm hf => Action.sound_functions hm (hf.isRead_rest hs) g
  advance := fun hs hn hf => hf.advance hs hn
  block := by
    intro f c rest start stop hs hstop hb hf
    refine ⟨hf.isRead, ?_, fun _ => ?_⟩
    · have hl := congrArg List.length hs
      have hle := hf.limit_le
      simp only [Frame.segment, Program.slice, List.length_drop, List.length_take,
        List.length_cons] at hl
      change f.index + 1 + stop ≤ f.program.length
      omega
    · unfold Frame.segment
      rwa [Frame.slice_of_segment hs hstop]
  call := by
    intro m name body p hm hget hp
    obtain ⟨q, hq, hb⟩ := hm _ _ hget
    cases hp.symm.trans hq
    refine ⟨Program.isRead_of_ofLines hp, Nat.le_refl _, fun _ => ?_⟩
    rwa [Frame.segment_whole]

theorem Exec.Reaches.sound {g : Guard} {p : Program} {m : Machine} {pt : Point}
    (h : Reaches g p m pt) (hf : Functions.Sound m.functions) (hp : p.IsRead) : pt.Sound := by
  have hw : Frame.Sound ⟨p, 0, p.length, .whole⟩ := ⟨hp, Nat.le_refl _, fun hw => absurd rfl hw⟩
  obtain ⟨hm, hfs⟩ := h.preserved (Point.preserved_sound g) hf hw
  exact ⟨hm, hfs⟩

namespace Session

theorem sound_run {g : Guard} {s : Session} (hs : Functions.Sound s.functions) (source : Text) :
    Functions.Sound (run g s source).session.functions := by
  cases hp : Program.ofText source with
  | error e =>
    rw [run_of_ofText_eq_error hp]
    exact hs
  | ok p =>
    obtain ⟨pt, hr, -, hf⟩ := exists_reaches_session g s hp
    rw [hf]
    exact (hr.sound hs (Program.isRead_of_ofLines hp)).functions

/-- In every reachable session, every function body can be read and is balanced. -/
theorem Reachable.sound {s : Session} (h : Reachable s) : Functions.Sound s.functions := by
  induction h with
  | new => exact .empty
  | run _ g source ih => exact sound_run ih source
  | reset => exact .empty
  | interrupt _ ih => exact ih

end Session

end LineScript
