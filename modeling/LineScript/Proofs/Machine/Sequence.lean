import LineScript.Proofs.Machine.Running

/-! # One text after another

What a command does depends on its own block only, not on what follows the block. So a balanced
text, followed by another one, runs as it does alone, and the other one runs from where it ends. A
text that can be run to its end is balanced.
-/

namespace LineScript

open Program

namespace Action

variable {g : Guard} {c : Command} {rest : Program} {m : Machine}

theorem ofStatement_append (h : Balanced (c :: rest)) (q : Program) :
    ofStatement g c (rest ++ q) m = ofStatement g c rest m := by
  have hclose : ∀ b, c.statement.opens = some b → ∃ i, rest.closer? b = some i ∧
      closer? (rest ++ q) b = some i ∧ (rest ++ q).take i = rest.take i := by
    intro b ho
    obtain ⟨i, hi, -⟩ := h.closer? ho
    refine ⟨i, hi, closer?_append hi q, ?_⟩
    exact List.take_append_of_le_length (Nat.le_of_lt (lt_length_of_closer? hi))
  unfold ofStatement
  cases hs : c.statement with
  | ifThen condition =>
    obtain ⟨i, hi, hi', ht⟩ := hclose .conditional (by rw [hs]; rfl)
    dsimp only
    rw [ofBranch, ofBranch, hi, hi']
    dsimp only
    rw [ht]
  | caseOf name =>
    obtain ⟨i, hi, hi', ht⟩ := hclose .selection (by rw [hs]; rfl)
    dsimp only
    rw [ofSelection, ofSelection, hi, hi']
    dsimp only
    rw [ht]
  | define name =>
    obtain ⟨i, hi, hi', ht⟩ := hclose .function (by rw [hs]; rfl)
    dsimp only
    rw [ofDefinition, ofDefinition, hi, hi']
    dsimp only
    rw [ht]
  | _ => rfl

theorem ofCommand_append (h : Balanced (c :: rest)) (q : Program) :
    ofCommand g c (rest ++ q) m = ofCommand g c rest m := by
  unfold ofCommand
  rw [ofStatement_append h]

theorem Control.perform_append {a : Action} (h : Control g c rest m a) (inner : Exec.Runner)
    (l : Line) (q : Program) : a.perform inner l (rest ++ q) = a.perform inner l rest := by
  cases h with
  | @enter b i start stop m' ho hc hle hstop =>
    have hlt := lt_length_of_closer? hc
    unfold perform
    dsimp only
    unfold slice
    rw [List.take_append_of_le_length (by omega)]
  | _ => rfl

end Action

theorem Command.Spans.balanced_cons {c : Command} {rest : Program} {done : Nat}
    (h : c.Spans rest done) (hb : Balanced (rest.drop done)) : Balanced (c :: rest) := by
  cases h with
  | plain ho => exact (balanced_cons_iff ho).mpr hb
  | block ho hc => exact (balanced_block_iff ho hc).mpr hb

namespace Exec

variable {g : Guard} {inner : Runner}

theorem spans_of_perform {c : Command} {rest : Program} {m m' : Machine} {done : Nat} {l : Line}
    (h : (Action.ofCommand g c rest m).perform inner l rest = .ok done m') :
    c.Spans rest done := by
  have hk := Action.control_ofCommand g c rest m
  cases ha : Action.ofCommand g c rest m with
  | fail e m₁ =>
    rw [ha] at h
    cases h
  | pass done' m₁ =>
    rw [ha] at h hk
    cases h
    exact hk.spans_of_pass
  | enter start stop done' m₁ =>
    rw [ha] at h hk
    unfold Action.perform at h
    dsimp only at h
    cases hr : inner l (rest.slice start stop) m₁ with
    | ok u m₂ =>
      rw [hr] at h
      cases h
      exact hk.spans_of_enter
    | error e m₂ =>
      rw [hr] at h
      cases h
  | call p m₁ =>
    rw [ha] at h hk
    unfold Action.perform at h
    dsimp only at h
    cases hr : inner l p m₁.enterCall with
    | ok u m₂ =>
      rw [hr] at h
      cases h
      exact hk.spans_of_call
    | error e m₂ =>
      rw [hr] at h
      cases h

/-- A text that runs to its end is balanced. -/
theorem balanced_of_runFrom {p : Program} {m m' : Machine} {u : Unit}
    (h : runFrom g inner 0 p m = .ok u m') : p.Balanced := by
  induction p using dropInduction generalizing m with
  | nil => exact balanced_nil
  | cons c rest ih =>
    rw [runFrom_cons] at h
    cases hr : (Action.ofCommand g c rest m).perform inner c.line rest with
    | ok done m₁ =>
      rw [hr] at h
      exact (spans_of_perform hr).balanced_cons (ih done h)
    | error e m₁ =>
      rw [hr] at h
      cases h

/-- A balanced text runs as it does alone, and what follows it runs from where it ends. -/
theorem runFrom_append {p : Program} (hp : p.Balanced) (q : Program) (m : Machine) :
    runFrom g inner 0 (p ++ q) m =
      followedBy (runFrom g inner 0 p m) fun _ => runFrom g inner 0 q := by
  induction p using dropInduction generalizing m with
  | nil => rfl
  | cons c rest ih =>
    have hk := Action.control_ofCommand g c rest m
    rw [List.cons_append, runFrom_cons, runFrom_cons, Action.ofCommand_append hp,
      hk.perform_append]
    cases hr : (Action.ofCommand g c rest m).perform inner c.line rest with
    | error e m₁ => rfl
    | ok done m₁ =>
      have hs := spans_of_perform hr
      rw [followedBy_ok, followedBy_ok, List.drop_append_of_le_length hs.le_length]
      exact ih done (hs.balanced hp) m₁

theorem run_append {p : Program} {m m' : Machine} {u : Unit} (h : run g p m = .ok u m')
    (q : Program) : run g (p ++ q) m = run g q m' := by
  unfold run at *
  rw [runFrom_append (balanced_of_runFrom h), h, followedBy_ok]

end Exec

end LineScript
