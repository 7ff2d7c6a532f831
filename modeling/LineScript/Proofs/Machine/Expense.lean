import Mathlib.Algebra.BigOperators.Ring.Finset
import LineScript.Proofs.Machine.Levels

/-! # What a run can cost

A command costs one statement, and a call costs besides what its body does. As calls nest only so
deep, and no body is ever longer than the longest text there is at the start, the segments under way
can cost only so much more. Every step of a run pays for the statement it starts out of that sum.
-/

namespace LineScript

def Functions.Within (n : Nat) (t : Functions) : Prop :=
  ∀ name body, t.get? name = some body → body.length ≤ n

theorem Action.within_functions {c : Command} {rest : Program} {m : Machine} {n : Nat}
    (h : Functions.Within n m.functions) (hr : rest.length ≤ n) (g : Guard) :
    Functions.Within n (ofCommand g c rest m).machine.functions := by
  refine machine_ofCommand (P := fun m' => Functions.Within n m'.functions) h h fun _ _ m' hc => ?_
  cases hc with
  | @define name stop _ hs =>
    intro name' body hget
    simp only [Machine.defined, Table.get?_insert] at hget
    split at hget
    · cases hget
      simp only [Program.lines, List.length_map, List.length_take]
      omega
    · exact h name' body hget
  | @decide condition _ => cases condition <;> exact h
  | _ => exact h

theorem Point.preserved_within (g : Guard) (n : Nat) :
    Preserved g (fun m => Functions.Within n m.functions) (fun f => f.program.length ≤ n) where
  enter := fun scope _ h => by cases scope <;> exact h
  leave := fun scope _ h => by cases scope <;> exact h
  action := by
    intro f c rest m hs hm hf
    have hl := congrArg List.length hs
    simp only [Frame.segment, Program.slice, List.length_drop, List.length_take,
      List.length_cons] at hl
    exact Action.within_functions hm (by omega) g
  advance := fun _ _ hf => hf
  block := fun _ _ _ hf => hf
  call := fun hm hget hp => Program.length_of_ofLines hp ▸ hm _ _ hget

/-- What a command can cost, where calls may nest `k` deep and bodies have up to `n` commands. -/
def Command.cost (n : Nat) : (k : Nat) → Nat
  | 0 => 1
  | k + 1 => 1 + n * cost n k

theorem Command.one_le_cost (n k : Nat) : 1 ≤ cost n k := by
  cases k with
  | zero => exact Nat.le_refl 1
  | succ k => exact Nat.le_add_right 1 _

theorem Command.cost_eq_sum (n k : Nat) : cost n k = ∑ i ∈ Finset.range (k + 1), n ^ i := by
  induction k with
  | zero => simp [cost]
  | succ k ih =>
    rw [cost, ih, Finset.mul_sum, Finset.sum_range_succ' _ (k + 1), Nat.add_comm]
    simp only [pow_succ', pow_zero]

namespace Frame

/-- What the segments under way can still cost, where calls nest up to `d` deep. -/
def cost (n d : Nat) : List Frame → Nat
  | [] => 0
  | f :: fs => f.segment.length * Command.cost n (d - depth (f :: fs)) + cost n d fs

section Paying

variable (n d : Nat) {f : Frame} {c : Command} {rest : Program} (hs : f.segment = c :: rest)

include hs

theorem cost_advance {k : Nat} (hk : k ≤ rest.length) (fs : List Frame) :
    cost n d (f.advance (k + 1) :: fs) + (k + 1) * Command.cost n (d - depth (f :: fs)) =
      cost n d (f :: fs) := by
  have hl : rest.length - k + (k + 1) = rest.length + 1 := by omega
  simp only [cost, segment_advance hs, hs, List.length_drop, List.length_cons, depth_cons,
    scope_advance]
  rw [Nat.add_right_comm, ← Nat.add_mul, hl]

theorem cost_pass {k : Nat} (hk : k ≤ rest.length) (fs : List Frame) :
    cost n d (f.advance (k + 1) :: fs) + 1 ≤ cost n d (f :: fs) := by
  have hone := Command.one_le_cost n (d - depth (f :: fs))
  have hpay := Nat.mul_le_mul (Nat.le_add_left 1 k) hone
  rw [← cost_advance n d hs hk fs]
  omega

theorem cost_block {start stop k : Nat} (hstop : stop ≤ k) (hk : k ≤ rest.length)
    (fs : List Frame) :
    cost n d (⟨f.program, f.index + 1 + start, f.index + 1 + stop, .block⟩ ::
      f.advance (k + 1) :: fs) + 1 ≤ cost n d (f :: fs) := by
  have hone := Command.one_le_cost n (d - depth (f :: fs))
  have hbody : (rest.slice start stop).length ≤ k := by
    simp only [Program.slice, List.length_drop, List.length_take]
    omega
  have hpay := Nat.mul_le_mul_right (Command.cost n (d - depth (f :: fs))) hbody
  rw [← cost_advance n d hs hk fs, cost, segment, slice_of_segment hs (by omega), Nat.add_mul]
  simp only [depth_cons, scope_advance, Scope.depth, Nat.zero_add] at hone hpay ⊢
  omega

theorem cost_call {p : Program} (hp : p.length ≤ n) (fs : List Frame) (hd : depth (f :: fs) < d) :
    cost n d (⟨p, 0, p.length, .call⟩ :: f.advance 1 :: fs) + 1 ≤ cost n d (f :: fs) := by
  obtain ⟨k, hk⟩ : ∃ k, d - depth (f :: fs) = k + 1 := ⟨d - depth (f :: fs) - 1, by omega⟩
  have hk' : d - (1 + depth (f :: fs)) = k := by omega
  have hpay := Nat.mul_le_mul_right (Command.cost n k) hp
  have hcall : cost n d (⟨p, 0, p.length, .call⟩ :: f.advance 1 :: fs) =
      p.length * Command.cost n k + cost n d (f.advance 1 :: fs) := by
    rw [cost, segment_whole, ← hk']
    rfl
  have hadv : cost n d (f.advance 1 :: fs) + 1 * Command.cost n (d - depth (f :: fs)) =
      cost n d (f :: fs) := cost_advance n d hs (Nat.zero_le _) fs
  rw [← hadv, hcall, hk, Command.cost]
  omega

end Paying

end Frame

theorem Action.steps_le {g : Guard} {c : Command} {rest : Program} {m : Machine} {a : Action}
    (ha : ofCommand g c rest m = a) : a.machine.steps ≤ m.steps + 1 := by
  cases ha ▸ start_ofCommand g c rest m with
  | interrupted => exact Nat.le_succ _
  | exhausted => exact Nat.le_refl _
  | started _ _ hc => exact Nat.le_of_eq hc.steps

namespace Point

/-- What a run has cost up to this point, and can still cost. -/
def cost (n d : Nat) (pt : Point) : Nat := pt.machine.steps + Frame.cost n d pt.frames

/-- No step makes a run cost more. -/
theorem Step.cost_le {g : Guard} {pt pt' : Point} (h : Step g pt pt') (hl : pt.Leveled g) {n : Nat}
    (hf : Functions.Within n pt.machine.functions) :
    pt'.cost n (min g.maxCallDepth g.maxNesting) ≤ pt.cost n (min g.maxCallDepth g.maxNesting) := by
  have hk := Action.control_ofCommand g
  -- a step that starts a statement pays for it out of what was left to pay
  have hpay {m : Machine} {fs fs' : List Frame} {c : Command} {rest : Program} {a : Action}
      (ha : Action.ofCommand g c rest m = a)
      (hc : Frame.cost n (min g.maxCallDepth g.maxNesting) fs' + 1 ≤
        Frame.cost n (min g.maxCallDepth g.maxNesting) fs) :
      cost n (min g.maxCallDepth g.maxNesting) ⟨a.machine, fs'⟩ ≤
        cost n (min g.maxCallDepth g.maxNesting) ⟨m, fs⟩ := by
    have hm := Action.steps_le ha
    simp only [cost]
    omega
  cases h with
  | @leave m f fs hs =>
    have hm : (f.scope.leave m).steps = m.steps := by cases f.scope <;> rfl
    simp only [cost, Frame.cost, hm]
    omega
  | @pass m m' f fs c rest done hs ha =>
    have hdone := (ha ▸ hk c rest m).spans_of_pass.le_length
    exact hpay ha (Frame.cost_pass _ _ hs hdone fs)
  | @enter m m' f fs c rest start stop done hs ha hlt =>
    have hcontrol := ha ▸ hk c rest m
    have hstop : stop ≤ done := by
      cases hcontrol with
      | enter _ _ _ hle => omega
    exact hpay ha (Frame.cost_block _ _ hs hstop hcontrol.spans_of_enter.le_length fs)
  | @call m m' f fs c rest p hs ha hlt =>
    have hn : m'.nesting = m.nesting := (hl.act ha 1).nesting.trans hl.nesting.symm
    have hle : m.depth ≤ m.nesting := hl.depth_le_nesting
    have hd : m.depth = Frame.depth (f :: fs) := hl.depth
    cases ha ▸ hk c rest m with
    | call _ hget hp hlt' =>
      have hlen := Program.length_of_ofLines hp ▸ hf _ _ hget
      exact hpay ha (Frame.cost_call _ _ hs hlen fs (by omega))

end Point

namespace Exec

variable {g : Guard} {p : Program} {m : Machine} {n : Nat} (hd : m.depth = 0) (hn : m.nesting = 0)
  (hz : m.steps = 0) (hf : Functions.Within n m.functions) (hp : p.length ≤ n)

include hd hn hz hf hp

theorem Reaches.cost_le {pt : Point} (h : Reaches g p m pt) :
    pt.cost n (min g.maxCallDepth g.maxNesting) ≤
      n * Command.cost n (min g.maxCallDepth g.maxNesting) := by
  have hpres := Point.preserved_within g n
  refine (h.invariant (I := fun pt => pt.Leveled g ∧
    (Functions.Within n pt.machine.functions ∧ ∀ f ∈ pt.frames, f.program.length ≤ n) ∧
    pt.cost n (min g.maxCallDepth g.maxNesting) ≤
      n * Command.cost n (min g.maxCallDepth g.maxNesting)) ?_ ?_).2.2
  · rintro pt pt' hs ⟨hl, hw, hc⟩
    exact ⟨hs.leveled hl, hpres.step hs hw, (hs.cost_le hl hw.1).trans hc⟩
  · refine ⟨Point.leveled_start g p hd hn, ⟨hf, by simpa [Point.start] using hp⟩, ?_⟩
    have hstart : Point.cost n (min g.maxCallDepth g.maxNesting) (.start p m) =
        p.length * Command.cost n (min g.maxCallDepth g.maxNesting) := by
      simp [Point.cost, Point.start, Frame.cost, Frame.segment_whole, Frame.depth, Scope.depth, hz]
    rw [hstart]
    exact Nat.mul_le_mul_right _ hp

/--
A run costs no more than it could at the start. One that an interrupt stops, or the limit on steps,
still had a statement to pay for.
-/
theorem run_cost_le :
    (final (run g p m)).steps ≤ n * Command.cost n (min g.maxCallDepth g.maxNesting) ∧
    ∀ e m', run g p m = .error e m' →
      (e.kind = .interrupted →
        m'.steps < n * Command.cost n (min g.maxCallDepth g.maxNesting)) ∧
      (e.kind = .steps → g.maxSteps < n * Command.cost n (min g.maxCallDepth g.maxNesting)) := by
  cases hr : run g p m with
  | ok u m' =>
    exact ⟨(reaches_of_run_eq_ok hr).cost_le hd hn hz hf hp, by simp⟩
  | error e m' =>
    obtain ⟨⟨m₁, frames⟩, hpt, hnext⟩ := exists_reaches_of_run_eq_error hr
    have hfail := Point.fails_of_next hnext
    obtain ⟨hint, hexh, -⟩ := hfail.of_kind
    obtain ⟨f, fs, c, rest, rfl, hs⟩ := hfail.exists_segment
    have hcost := hpt.cost_le hd hn hz hf hp
    have hpay := Frame.cost_pass n (min g.maxCallDepth g.maxNesting) hs (Nat.zero_le _) fs
    obtain ⟨d, k, hm⟩ := Point.exists_machine_next hs g m₁ fs
    have hsteps := congrArg Machine.steps hm
    have hle := Action.steps_le (rfl : Action.ofCommand g c rest m₁ = _)
    simp only [hnext, Progress.machine, Machine.relevel, Point.cost] at hsteps hcost
    simp only [final]
    refine ⟨by omega, ?_⟩
    rintro e' m' ⟨⟩
    constructor
    · intro hk
      rw [Action.ofCommand_of_interrupted c rest (hint hk)] at hsteps
      simp only [Action.machine, Machine.calmed] at hsteps
      omega
    · intro hk
      have := hexh hk
      dsimp only at this
      omega

end Exec

end LineScript
