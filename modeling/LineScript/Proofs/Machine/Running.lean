import LineScript.Proofs.Machine.Effect

/-! # Running a segment

A segment runs command by command, each performing its action. Whatever ends it, a segment is left
with the numbers of open blocks and of calls with which it was entered.
-/

namespace LineScript

theorem Machine.Change.counters {g : Guard} {c : Command} {rest : Program} {m m' : Machine}
    (h : Change g c rest m m') : m'.depth = m.depth ∧ m'.nesting = m.nesting := by
  cases h with
  | @decide condition _ => cases condition <;> exact ⟨rfl, rfl⟩
  | _ => exact ⟨rfl, rfl⟩

theorem Action.counters_ofCommand (g : Guard) (c : Command) (rest : Program) (m : Machine) :
    (ofCommand g c rest m).machine.depth = m.depth ∧
      (ofCommand g c rest m).machine.nesting = m.nesting :=
  machine_ofCommand (P := fun m' => m'.depth = m.depth ∧ m'.nesting = m.nesting)
    ⟨rfl, rfl⟩ ⟨rfl, rfl⟩ fun _ _ _ h => h.counters

namespace Exec

def followedBy {α : Type} (r : Result α) (next : α → Exec Unit) : Result Unit :=
  match r with
  | .ok a m => next a m
  | .error e m => .error e m

@[simp] theorem followedBy_ok {α : Type} (a : α) (m : Machine) (next : α → Exec Unit) :
    followedBy (.ok a m) next = next a m := rfl

section Running

variable (g : Guard) (inner : Runner)

theorem runFrom_eq_drop (n : Nat) (p : Program) :
    runFrom g inner n p = runFrom g inner 0 (p.drop n) := by
  induction p generalizing n with
  | nil => cases n <;> rfl
  | cons c p ih =>
    cases n with
    | zero => rfl
    | succ n => exact ih n

/-- A segment runs by performing the action of its first command, and then the rest of it. -/
theorem runFrom_cons (c : Command) (rest : Program) (m : Machine) :
    runFrom g inner 0 (c :: rest) m =
      followedBy ((Action.ofCommand g c rest m).perform inner c.line rest) fun done =>
        runFrom g inner 0 (rest.drop done) := by
  rw [runFrom, ← execute_apply]
  cases h : execute g inner c rest m with
  | ok done m' =>
    rw [bind_ok h, runFrom_eq_drop]
    rfl
  | error e m' =>
    rw [bind_error h]
    rfl

theorem nested_zero (l : Line) (p : Program) (m : Machine) :
    nested g 0 l p m = .error (.ofLimit .nesting l g.maxNesting) m := rfl

theorem nested_succ (room : Nat) (l : Line) (p : Program) (m : Machine) :
    nested g (room + 1) l p m =
      if g.maxNesting ≤ m.nesting then .error (.ofLimit .nesting l g.maxNesting) m
      else mapMachine Machine.leaveBlock (runFrom g (nested g room) 0 p m.enterBlock) := by
  rw [nested, bind_ok (get_apply m)]
  split
  · rfl
  · exact between_apply ..

end Running

/-- A relation between the machines before and after, which every part of a run keeps. -/
structure Evolves (g : Guard) (R : Machine → Machine → Prop) : Prop where
  refl : ∀ m, R m m
  trans : ∀ {m₁ m₂ m₃}, R m₁ m₂ → R m₂ m₃ → R m₁ m₃
  action : ∀ c rest m, R m (Action.ofCommand g c rest m).machine
  block : ∀ {m m'}, R m.enterBlock m' → R m m'.leaveBlock
  call : ∀ {m m'}, R m.enterCall m' → R m m'.leaveCall

namespace Evolves

variable {g : Guard} {R : Machine → Machine → Prop} {inner : Runner}

theorem perform (h : Evolves g R) (hin : ∀ l p m, R m (final (inner l p m))) (l : Line)
    (rest : Program) (a : Action) : R a.machine (final (a.perform inner l rest)) := by
  cases a with
  | fail e m => exact h.refl m
  | pass done m => exact h.refl m
  | enter start stop done m =>
    rw [Action.perform, final_returning]
    exact hin l (rest.slice start stop) m
  | call p m =>
    rw [Action.perform, final_returning, final_mapMachine]
    exact h.call (hin l p m.enterCall)

theorem segment (h : Evolves g R) (hin : ∀ l p m, R m (final (inner l p m))) (p : Program)
    (m : Machine) : R m (final (runFrom g inner 0 p m)) := by
  induction p using Program.dropInduction generalizing m with
  | nil => exact h.refl m
  | cons c rest ih =>
    have hp := h.trans (h.action c rest m)
      (h.perform hin c.line rest (Action.ofCommand g c rest m))
    rw [runFrom_cons]
    cases hr : (Action.ofCommand g c rest m).perform inner c.line rest with
    | error e m' =>
      rw [hr] at hp
      exact hp
    | ok done m' =>
      rw [hr] at hp
      exact h.trans hp (ih done m')

/-- What every action keeps, and what survives entering and leaving, is kept by every body. -/
theorem nested (h : Evolves g R) (room : Nat) (l : Line) (p : Program) (m : Machine) :
    R m (final (nested g room l p m)) := by
  induction room generalizing l p m with
  | zero => exact h.refl m
  | succ room ih =>
    rw [nested_succ]
    split
    · exact h.refl m
    · rw [final_mapMachine]
      exact h.block (h.segment ih p m.enterBlock)

theorem runFrom (h : Evolves g R) (room : Nat) (p : Program) (m : Machine) :
    R m (final (runFrom g (Exec.nested g room) 0 p m)) :=
  h.segment (h.nested room) p m

theorem of_run (h : Evolves g R) {p : Program} {m m' : Machine} {u : Unit}
    (hr : run g p m = .ok u m') : R m m' := by
  have hf := h.runFrom g.maxNesting p m
  rwa [show Exec.runFrom g (Exec.nested g g.maxNesting) 0 p m = .ok u m' from hr] at hf

end Evolves

theorem evolves_counters (g : Guard) :
    Evolves g fun m m' => m'.depth = m.depth ∧ m'.nesting = m.nesting where
  refl := fun _ => ⟨rfl, rfl⟩
  trans := fun h h' => ⟨h'.1.trans h.1, h'.2.trans h.2⟩
  action := Action.counters_ofCommand g
  block := fun h => ⟨h.1, congrArg (· - 1) h.2⟩
  call := fun h => ⟨congrArg (· - 1) h.1, h.2⟩

end Exec

end LineScript
