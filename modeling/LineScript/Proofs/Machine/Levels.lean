import LineScript.Proofs.Machine.Lockstep
import LineScript.Proofs.Reading

/-! # Levels

At every point of a run, the counters of its machine tell how many of the segments under way were
entered from another one, and how many of these as calls. So neither counter passes its limit, and
calls are never deeper than the blocks and calls that are open.
-/

namespace LineScript

namespace Scope

/-- What entering a segment adds to the depth of calls. -/
def depth : Scope → Nat
  | call => 1
  | _ => 0

/-- What entering a segment adds to the number of open blocks and calls. -/
def nesting : Scope → Nat
  | whole => 0
  | _ => 1

theorem depth_le_nesting (scope : Scope) : scope.depth ≤ scope.nesting := by
  cases scope <;> decide

theorem depth_enter (scope : Scope) (m : Machine) :
    (scope.enter m).depth = m.depth + scope.depth := by
  cases scope <;> rfl

theorem nesting_enter (scope : Scope) (m : Machine) :
    (scope.enter m).nesting = m.nesting + scope.nesting := by
  cases scope <;> rfl

theorem depth_leave (scope : Scope) (m : Machine) :
    (scope.leave m).depth = m.depth - scope.depth := by
  cases scope <;> rfl

theorem nesting_leave (scope : Scope) (m : Machine) :
    (scope.leave m).nesting = m.nesting - scope.nesting := by
  cases scope <;> rfl

end Scope

namespace Frame

def depth : List Frame → Nat
  | [] => 0
  | f :: fs => f.scope.depth + depth fs

def nesting : List Frame → Nat
  | [] => 0
  | f :: fs => f.scope.nesting + nesting fs

@[simp] theorem depth_cons (f : Frame) (fs : List Frame) :
    depth (f :: fs) = f.scope.depth + depth fs := rfl

@[simp] theorem nesting_cons (f : Frame) (fs : List Frame) :
    nesting (f :: fs) = f.scope.nesting + nesting fs := rfl

@[simp] theorem scope_advance (f : Frame) (n : Nat) : (f.advance n).scope = f.scope := rfl

theorem depth_le_nesting (fs : List Frame) : depth fs ≤ nesting fs := by
  induction fs with
  | nil => exact Nat.le_refl 0
  | cons f fs ih =>
    have hf := f.scope.depth_le_nesting
    simp only [depth_cons, nesting_cons]
    omega

end Frame

namespace Point

/-- The counters tell the segments under way, and neither is above its limit. -/
structure Leveled (g : Guard) (pt : Point) : Prop where
  depth : pt.machine.depth = Frame.depth pt.frames
  nesting : pt.machine.nesting = Frame.nesting pt.frames
  depth_le : pt.machine.depth ≤ g.maxCallDepth
  nesting_le : pt.machine.nesting ≤ g.maxNesting

namespace Leveled

variable {g : Guard} {pt : Point} {m m' : Machine} {f : Frame} {fs : List Frame}

theorem depth_le_nesting (h : Leveled g pt) : pt.machine.depth ≤ pt.machine.nesting := by
  rw [h.depth, h.nesting]
  exact Frame.depth_le_nesting _

theorem enter (h : Leveled g ⟨m, fs⟩) (hd : m.depth + f.scope.depth ≤ g.maxCallDepth)
    (hn : m.nesting + f.scope.nesting ≤ g.maxNesting) : Leveled g ⟨f.scope.enter m, f :: fs⟩ where
  depth := by rw [Scope.depth_enter, Frame.depth_cons, h.depth, Nat.add_comm]
  nesting := by rw [Scope.nesting_enter, Frame.nesting_cons, h.nesting, Nat.add_comm]
  depth_le := by rwa [Scope.depth_enter]
  nesting_le := by rwa [Scope.nesting_enter]

theorem leave (h : Leveled g ⟨m, f :: fs⟩) : Leveled g ⟨f.scope.leave m, fs⟩ := by
  obtain ⟨hd, hn, hdl, hnl⟩ := h
  simp only [Frame.depth_cons, Frame.nesting_cons] at hd hn hdl hnl
  constructor <;> simp only [Scope.depth_leave, Scope.nesting_leave] <;> omega

theorem act (h : Leveled g ⟨m, f :: fs⟩) {c : Command} {rest : Program} {a : Action}
    (ha : Action.ofCommand g c rest m = a) (n : Nat) :
    Leveled g ⟨a.machine, f.advance n :: fs⟩ := by
  obtain ⟨hd, hn⟩ := ha ▸ Action.counters_ofCommand g c rest m
  exact ⟨hd.trans h.depth, hn.trans h.nesting, hd ▸ h.depth_le, hn ▸ h.nesting_le⟩

end Leveled

/-- A call is made from here; `m` is the machine between the two levels that it raises. -/
inductive Calls (g : Guard) : Point → Machine → Prop where
  | intro {m m' : Machine} {f : Frame} {fs : List Frame} {c : Command} {rest p : Program} :
      f.segment = c :: rest → Action.ofCommand g c rest m = .call p m' →
      Calls g ⟨m, f :: fs⟩ m'.enterCall

variable {g : Guard} {pt pt' : Point} {e : Error} {m' : Machine}

theorem Leveled.calls (h : pt.Leveled g) (hm : pt.Calls g m') :
    m'.depth ≤ m'.nesting + 1 ∧ m'.nesting ≤ g.maxNesting ∧ m'.depth ≤ g.maxCallDepth := by
  cases hm with
  | @intro m m' f fs c rest p _ ha =>
    have hl := h.act ha 0
    have hle : m'.depth ≤ m'.nesting := hl.depth_le_nesting
    have hd : m.depth < g.maxCallDepth := by
      cases ha ▸ Action.control_ofCommand g c rest m with
      | call _ _ _ hd => exact hd
    have hm : m'.depth = m.depth := hl.depth.trans h.depth.symm
    refine ⟨Nat.succ_le_succ hle, hl.nesting_le, ?_⟩
    change m'.depth + 1 ≤ g.maxCallDepth
    rwa [hm]

/-- Every step keeps the counters in line with the segments under way. -/
theorem Step.leveled (h : Step g pt pt') (hi : Leveled g pt) : Leveled g pt' := by
  cases h with
  | leave => exact hi.leave
  | @pass m m' f fs c rest done _ ha => exact hi.act ha (done + 1)
  | @enter m m' f fs c rest start stop done _ ha hlt =>
    have h := hi.act ha (done + 1)
    exact h.enter (f := ⟨_, _, _, .block⟩) h.depth_le hlt
  | @call m m' f fs c rest p hs ha hlt =>
    obtain ⟨-, -, hd⟩ := hi.calls (.intro hs ha)
    exact (hi.act ha 1).enter (f := ⟨_, _, _, .call⟩) hd hlt

theorem Fails.exists_segment (h : Fails g pt e m') :
    ∃ f fs c rest, pt.frames = f :: fs ∧ f.segment = c :: rest := by
  cases h with
  | action hs _ => exact ⟨_, _, _, _, rfl, hs⟩
  | enter hs _ _ => exact ⟨_, _, _, _, rfl, hs⟩
  | call hs _ _ => exact ⟨_, _, _, _, rfl, hs⟩

theorem Fails.of_kind (h : Fails g pt e m') :
    (e.kind = .interrupted → pt.machine.interrupted = true) ∧
      (e.kind = .steps → g.maxSteps ≤ pt.machine.steps) ∧
      (e.kind = .callDepth → g.maxCallDepth ≤ pt.machine.depth) := by
  cases h with
  | enter => simp [Error.ofLimit]
  | call => simp [Error.ofLimit]
  | @action m m' f fs c rest e _ ha =>
    cases ha ▸ Action.control_ofCommand g c rest m with
    | interrupted hi => simp [hi]
    | steps hs => simpa [Error.ofLimit, Machine.counted] using Nat.le_of_lt_succ hs
    | callDepth hd => simpa [Error.ofLimit] using hd
    | unclosed => simp [Error.ofOpenBlock]
    | malformed _ hp => simp [Program.kind_of_ofLines_eq_error hp]

theorem depth_unwind (m : Machine) (fs : List Frame) :
    (unwind m fs).depth = m.depth - Frame.depth fs := by
  induction fs generalizing m with
  | nil => rfl
  | cons f fs ih =>
    have h := ih (f.scope.leave m)
    rw [Scope.depth_leave, Nat.sub_sub, ← Frame.depth_cons] at h
    exact h

theorem nesting_unwind (m : Machine) (fs : List Frame) :
    (unwind m fs).nesting = m.nesting - Frame.nesting fs := by
  induction fs generalizing m with
  | nil => rfl
  | cons f fs ih =>
    have h := ih (f.scope.leave m)
    rw [Scope.nesting_leave, Nat.sub_sub, ← Frame.nesting_cons] at h
    exact h

end Point

/-- The counters tell what is under way: nothing any more, once the run is over. -/
def Progress.Leveled (g : Guard) : Progress → Prop
  | running pt => pt.Leveled g
  | failed _ m | finished m => m.depth = 0 ∧ m.nesting = 0

namespace Progress.Leveled

variable {g : Guard} {x : Progress}

theorem of_isEnd (h : x.Leveled g) (hx : x.IsEnd) :
    x.machine.depth = 0 ∧ x.machine.nesting = 0 := by
  cases x with
  | running pt => exact hx.elim
  | failed e m => exact h
  | finished m => exact h

theorem le (h : x.Leveled g) : x.machine.depth ≤ x.machine.nesting ∧
    x.machine.nesting ≤ g.maxNesting ∧ x.machine.depth ≤ g.maxCallDepth := by
  cases x with
  | running pt => exact ⟨Point.Leveled.depth_le_nesting h, h.nesting_le, h.depth_le⟩
  | failed e m | finished m =>
    obtain ⟨hd, hn⟩ := h
    simp [machine, hd, hn]

end Progress.Leveled

theorem Point.Leveled.next {g : Guard} {pt : Point} (h : pt.Leveled g) : (pt.next g).Leveled g := by
  have hu {f : Frame} {c : Command} {rest : Program} {m : Machine} {fs : List Frame} {a : Action}
      (ha : Action.ofCommand g c rest m = a) (h : Leveled g ⟨m, f :: fs⟩) :
      (unwind a.machine (f :: fs)).depth = 0 ∧ (unwind a.machine (f :: fs)).nesting = 0 := by
    have hl := h.act ha 0
    rw [depth_unwind, nesting_unwind]
    exact ⟨Nat.sub_eq_zero_of_le (Nat.le_of_eq hl.depth),
      Nat.sub_eq_zero_of_le (Nat.le_of_eq hl.nesting)⟩
  cases hn : pt.next g with
  | running pt' => exact (step_of_next hn).leveled h
  | finished m =>
    obtain rfl := eq_of_next_eq_finished hn
    exact ⟨h.depth, h.nesting⟩
  | failed e m' =>
    cases fails_of_next hn with
    | action _ ha => exact hu ha h
    | enter _ ha _ => exact hu ha h
    | call _ ha _ => exact hu ha h

theorem Point.leveled_start (g : Guard) (p : Program) {m : Machine} (hd : m.depth = 0)
    (hn : m.nesting = 0) : (start p m).Leveled g := by
  constructor <;> simp [start, Frame.depth, Frame.nesting, Scope.depth, Scope.nesting, hd, hn]

end LineScript
