import Mathlib.Data.Set.Defs
import LineScript.Proofs.Machine.Action
import LineScript.Proofs.Reading

/-! # What statements look up

A statement looks up the tokens it prints or compares, and the variable by which it selects. These
are trimmed on every line that can be read, so each names one variable, and a statement does the
same with any variables that agree on what it looks up.
-/

namespace LineScript

namespace Statement

/-- The tokens that a statement looks up among the variables. -/
def lookups : Statement → List Text
  | print (.token t) => [t]
  | ifThen (.compare lhs _ rhs) => [lhs, rhs]
  | caseOf name => [name]
  | _ => []

theorem trim_of_mem_ofText {t r : Text} (h : r ∈ (ifThen (.ofText t)).lookups) :
    Text.trim r = r := by
  unfold Condition.ofText at h
  split at h
  · cases h
  · dsimp only at h
    split at h
    · cases h
    · simp only [lookups, List.mem_cons, List.not_mem_nil, or_false] at h
      rcases h with rfl | rfl <;> exact Text.trim_trim _

theorem trim_of_mem_readPrint {t r : Text} {s : Statement} (h : readPrint t = .ok s)
    (hr : r ∈ s.lookups) : Text.trim r = r := by
  unfold readPrint at h
  split at h
  · cases h
  · split at h
    · cases h
    · dsimp only at h
      split at h
      · cases h
      · split at h
        · cases h
          cases hr
        · cases h
          rw [List.mem_singleton.mp hr, Text.trim_trim]

theorem trim_of_mem_lookups {t r : Text} {s : Statement} (h : read t = .ok s)
    (hr : r ∈ s.lookups) : Text.trim r = r := by
  unfold read at h
  split at h
  · cases h
    cases hr
  · split at h
    · next word rest _ =>
      cases ledBy_of_readAfter h with
      | print e => exact trim_of_mem_readPrint h hr
      | ifThen c =>
        rw [readAfter, readIf] at h
        split at h
        · cases h
        · dsimp only at h
          split at h
          · cases h
          · cases h
            exact trim_of_mem_ofText hr
      | caseOf name =>
        rw [readAfter, readCase] at h
        split at h
        · cases h
        · cases h
          rw [List.mem_singleton.mp hr, Text.trim_trim]
      | _ => cases hr
    · cases h
      cases hr

/-- The statement finds the same values in both tables. -/
def SeesAlike (vars vars' : Variables) (s : Statement) : Prop :=
  ∀ t ∈ s.lookups, vars'.resolve t = vars.resolve t ∧ vars'.fetch t = vars.fetch t

section SeesAlike

variable {vars vars' : Variables}

theorem SeesAlike.holds {c : Condition} (h : (ifThen c).SeesAlike vars vars') :
    c.holds vars' = c.holds vars := by
  cases c with
  | compare lhs op rhs =>
    have hl := (h lhs (by simp [lookups])).1
    have hr := (h rhs (by simp [lookups])).1
    rw [Condition.holds, Condition.holds, hl, hr]
  | invalid text => rfl

theorem SeesAlike.shown {e : Expression} (h : (print e).SeesAlike vars vars') :
    e.shown vars' = e.shown vars := by
  cases e with
  | literal text => rfl
  | token t => rw [Expression.shown, Expression.shown, (h t (by simp [lookups])).1]

theorem SeesAlike.fetch {name : Text} (h : (caseOf name).SeesAlike vars vars') :
    vars'.fetch name = vars.fetch name := (h name (by simp [lookups])).2

end SeesAlike

end Statement

namespace Line

def lookups (l : Line) : List Text :=
  match Statement.read l.text with
  | .ok s => s.lookups
  | .error _ => []

def Ignores (hidden : Set Text) (l : Line) : Prop := ∀ t ∈ l.lookups, t ∉ hidden

/-- Variables that agree on all other names are the same to a line that ignores these. -/
theorem Ignores.seesAlike {hidden : Set Text} {l : Line} (hl : l.Ignores hidden) {s : Statement}
    (hs : Statement.read l.text = .ok s) {vars vars' : Variables}
    (h : ∀ name, name ∉ hidden → vars'.get? name = vars.get? name) : s.SeesAlike vars vars' := by
  intro t ht
  have hget := h t (hl t (by rwa [lookups, hs]))
  constructor
  · rw [Variables.resolve, Variables.resolve, Statement.trim_of_mem_lookups hs ht, hget]
  · rw [Variables.fetch, Variables.fetch, hget]

end Line

/-- The program was read from its lines, and looks up none of the names. -/
structure Program.Ignores (hidden : Set Text) (p : Program) : Prop where
  isRead : p.IsRead
  lines : ∀ c ∈ p, c.line.Ignores hidden

namespace Program.Ignores

variable {hidden : Set Text} {p : Program}

theorem mono {q : Program} (h : q.Ignores hidden) (hs : ∀ c ∈ p, c ∈ q) : p.Ignores hidden :=
  ⟨h.isRead.mono hs, fun c hc => h.lines c (hs c hc)⟩

theorem take (h : p.Ignores hidden) (n : Nat) : Ignores hidden (p.take n) :=
  h.mono fun _ hc => List.mem_of_mem_take hc

theorem drop (h : p.Ignores hidden) (n : Nat) : Ignores hidden (p.drop n) :=
  h.mono fun _ hc => List.mem_of_mem_drop hc

theorem slice (h : p.Ignores hidden) (start stop : Nat) : Ignores hidden (p.slice start stop) :=
  (h.take stop).drop start

theorem of_ofLines {ls : List Line} (h : ofLines ls = .ok p) (hl : ∀ l ∈ ls, l.Ignores hidden) :
    p.Ignores hidden := by
  refine ⟨isRead_of_ofLines h, fun c hc => hl c.line ?_⟩
  rw [← lines_of_ofLines h]
  exact List.mem_map_of_mem hc

theorem mem_lines (h : p.Ignores hidden) {l : Line} (hl : l ∈ p.lines) : l.Ignores hidden := by
  obtain ⟨c, hc, rfl⟩ := List.mem_map.mp hl
  exact h.lines c hc

end Program.Ignores

end LineScript
