import Mathlib.Data.List.Basic
import LineScript.Program

/-! # Reading lines

A program that was read from lines can be read from them again, as can each of its parts. Reading
fails exactly at the first malformed line. The word that leads a line decides which statement the
line is, and what it does to the blocks around it.
-/

namespace LineScript

namespace Statement

inductive LedBy : Keyword → Statement → Prop where
  | print (e : Expression) : LedBy .print (.print e)
  | ifThen (c : Condition) : LedBy .if_ (.ifThen c)
  | caseOf (name : Text) : LedBy .revelationCase (.caseOf name)
  | define (name : Text) : LedBy .define (.define name)
  | call (name : Text) : LedBy .call (.call name)
  | when (label : Text) : LedBy .when (.when label)
  | otherwise : LedBy .else_ .otherwise
  | endIf : LedBy .endIf (.close .conditional)
  | endCase : LedBy .endCase (.close .selection)
  | endFunction : LedBy .endFunction (.close .function)
  | asFunction : LedBy .asFunction .unrecognized
  | then_ : LedBy .then_ .unrecognized

theorem ledBy_of_readBare {k : Keyword} {s s' : Statement} {t : Text} (h : LedBy k s)
    (hr : readBare k s t = .ok s') : LedBy k s' := by
  unfold readBare at hr
  split at hr
  · cases hr
    exact h
  · cases hr

theorem ledBy_of_readPrint {t : Text} {s : Statement} (h : readPrint t = .ok s) :
    LedBy .print s := by
  unfold readPrint at h
  split at h
  · cases h
  · split at h
    · cases h
    · dsimp only at h
      split at h
      · cases h
      · split at h <;> cases h <;> exact .print _

theorem ledBy_of_readAfter {k : Keyword} {t : Text} {s : Statement} (h : readAfter k t = .ok s) :
    LedBy k s := by
  cases k with
  | print => exact ledBy_of_readPrint h
  | if_ =>
    rw [readAfter, readIf] at h
    split at h
    · cases h
    · dsimp only at h
      split at h <;> cases h
      exact .ifThen _
  | revelationCase =>
    rw [readAfter, readCase] at h
    split at h <;> cases h
    exact .caseOf _
  | define =>
    rw [readAfter, readDefine] at h
    split at h
    · cases h
    · split at h <;> cases h
      exact .define _
  | call =>
    rw [readAfter, readCall] at h
    split at h <;> cases h
    exact .call _
  | when =>
    rw [readAfter, readWhen] at h
    split at h
    · cases h
    · split at h <;> cases h
      exact .when _
  | else_ => exact ledBy_of_readBare .otherwise h
  | endIf => exact ledBy_of_readBare .endIf h
  | endCase => exact ledBy_of_readBare .endCase h
  | endFunction => exact ledBy_of_readBare .endFunction h
  | asFunction =>
    cases h
    exact .asFunction
  | then_ =>
    cases h
    exact .then_

def edge (s : Statement) : Option Edge := (s.opens.map .opens).or (s.closes.map .closes)

theorem LedBy.edge {k : Keyword} {s : Statement} (h : LedBy k s) : edgeOfWord k = s.edge := by
  cases h <;> rfl

theorem edge?_of_read {t : Text} {s : Statement} (h : read t = .ok s) : edge? t = s.edge := by
  unfold read at h
  unfold edge?
  cases ha : assignment? t with
  | some a =>
    rw [ha] at h
    cases h
    rfl
  | none =>
    rw [ha] at h
    cases hl : Keyword.leading? t with
    | none =>
      rw [hl] at h
      cases h
      rfl
    | some w =>
      rw [hl] at h
      exact (ledBy_of_readAfter h).edge

end Statement

def Line.IsReadable (l : Line) : Prop := ∃ s, Statement.read l.text = .ok s

theorem Command.ofLine_eq_ok_iff {l : Line} {c : Command} :
    ofLine l = .ok c ↔ c.line = l ∧ Statement.read l.text = .ok c.statement := by
  unfold ofLine
  obtain ⟨l', s'⟩ := c
  cases h : Statement.read l.text with
  | ok s => simp [eq_comm]
  | error f => simp

theorem Command.ofLine_eq_error_iff {l : Line} {e : Error} :
    ofLine l = .error e ↔ ∃ f, Statement.read l.text = .error f ∧ e = .ofFault l f := by
  unfold ofLine
  cases h : Statement.read l.text with
  | ok s => simp
  | error f => simp [eq_comm]

namespace Program

/-- Every command is what its line reads as. -/
def IsRead (p : Program) : Prop := ∀ c ∈ p, Statement.read c.line.text = .ok c.statement

theorem IsRead.mono {p q : Program} (h : q.IsRead) (hs : ∀ c ∈ p, c ∈ q) : p.IsRead :=
  fun c hc => h c (hs c hc)

theorem ofLines_cons_eq_ok_iff {l : Line} {ls : List Line} {p : Program} :
    ofLines (l :: ls) = .ok p ↔
      ∃ c q, Command.ofLine l = .ok c ∧ ofLines ls = .ok q ∧ p = c :: q := by
  rw [ofLines]
  cases Command.ofLine l with
  | error e => simp
  | ok c =>
    cases ofLines ls with
    | error e => simp
    | ok q => simp [eq_comm]

/-- A program is read from lines exactly if these are its lines and it is what they read as. -/
theorem ofLines_eq_ok_iff {ls : List Line} {p : Program} :
    ofLines ls = .ok p ↔ p.lines = ls ∧ p.IsRead := by
  induction ls generalizing p with
  | nil =>
    constructor
    · intro h
      cases h
      exact ⟨rfl, by simp [IsRead]⟩
    · rintro ⟨h, -⟩
      cases p with
      | nil => rfl
      | cons c p => cases h
  | cons l ls ih =>
    rw [ofLines_cons_eq_ok_iff]
    constructor
    · rintro ⟨c, q, hc, hq, rfl⟩
      obtain ⟨rfl, hs⟩ := Command.ofLine_eq_ok_iff.mp hc
      obtain ⟨rfl, hr⟩ := ih.mp hq
      exact ⟨rfl, List.forall_mem_cons.mpr ⟨hs, hr⟩⟩
    · rintro ⟨h, hr⟩
      cases p with
      | nil => cases h
      | cons c q =>
        cases h
        obtain ⟨hs, hr⟩ := List.forall_mem_cons.mp hr
        exact ⟨c, q, Command.ofLine_eq_ok_iff.mpr ⟨rfl, hs⟩, ih.mpr ⟨rfl, hr⟩, rfl⟩

theorem IsRead.ofLines_lines {p : Program} (h : p.IsRead) : ofLines p.lines = .ok p :=
  ofLines_eq_ok_iff.mpr ⟨rfl, h⟩

theorem isRead_of_ofLines {ls : List Line} {p : Program} (h : ofLines ls = .ok p) : p.IsRead :=
  (ofLines_eq_ok_iff.mp h).2

theorem length_of_ofLines {ls : List Line} {p : Program} (h : ofLines ls = .ok p) :
    p.length = ls.length := by
  rw [← lines_of_ofLines h]
  simp [lines]

theorem ofLines_append {ls ls' : List Line} {p q : Program} (hp : ofLines ls = .ok p)
    (hq : ofLines ls' = .ok q) : ofLines (ls ++ ls') = .ok (p ++ q) := by
  obtain ⟨rfl, hrp⟩ := ofLines_eq_ok_iff.mp hp
  obtain ⟨rfl, hrq⟩ := ofLines_eq_ok_iff.mp hq
  refine ofLines_eq_ok_iff.mpr ⟨List.map_append, ?_⟩
  intro c hc
  rcases List.mem_append.mp hc with hc | hc
  · exact hrp c hc
  · exact hrq c hc

theorem exists_ofLines_of_readable {ls : List Line} (h : ∀ l ∈ ls, l.IsReadable) :
    ∃ p, ofLines ls = .ok p := by
  induction ls with
  | nil => exact ⟨[], rfl⟩
  | cons l ls ih =>
    obtain ⟨⟨s, hs⟩, hr⟩ := List.forall_mem_cons.mp h
    obtain ⟨p, hp⟩ := ih hr
    exact ⟨⟨l, s⟩ :: p, ofLines_cons_eq_ok_iff.mpr
      ⟨_, p, Command.ofLine_eq_ok_iff.mpr ⟨rfl, hs⟩, hp, rfl⟩⟩

theorem readable_of_ofLines {ls : List Line} {p : Program} (h : ofLines ls = .ok p) :
    ∀ l ∈ ls, l.IsReadable := by
  obtain ⟨rfl, hr⟩ := ofLines_eq_ok_iff.mp h
  intro l hl
  obtain ⟨c, hc, rfl⟩ := List.mem_map.mp hl
  exact ⟨c.statement, hr c hc⟩

/-- The first malformed line decides. -/
theorem ofLines_append_of_fault {pre post : List Line} {l : Line} {f : Fault}
    (h : ∀ l ∈ pre, l.IsReadable) (hf : Statement.read l.text = .error f) :
    ofLines (pre ++ l :: post) = .error (.ofFault l f) := by
  induction pre with
  | nil =>
    have he := Command.ofLine_eq_error_iff.mpr ⟨f, hf, rfl⟩
    rw [List.nil_append, ofLines, he]
  | cons l' pre ih =>
    obtain ⟨⟨s, hs⟩, hr⟩ := List.forall_mem_cons.mp h
    have ho : Command.ofLine l' = .ok ⟨l', s⟩ := Command.ofLine_eq_ok_iff.mpr ⟨rfl, hs⟩
    rw [List.cons_append, ofLines, ho, ih hr]

theorem exists_of_ofLines_eq_error {ls : List Line} {e : Error} (h : ofLines ls = .error e) :
    ∃ pre l post f, ls = pre ++ l :: post ∧ (∀ l ∈ pre, l.IsReadable) ∧
      Statement.read l.text = .error f ∧ e = .ofFault l f := by
  induction ls generalizing e with
  | nil => cases h
  | cons l ls ih =>
    rw [ofLines] at h
    cases hl : Command.ofLine l with
    | error e' =>
      rw [hl] at h
      cases h
      obtain ⟨f, hf, rfl⟩ := Command.ofLine_eq_error_iff.mp hl
      exact ⟨[], l, ls, f, rfl, by simp, hf, rfl⟩
    | ok c =>
      rw [hl] at h
      cases hs : ofLines ls with
      | ok q =>
        rw [hs] at h
        cases h
      | error e' =>
        rw [hs] at h
        cases h
        obtain ⟨pre, l', post, f, rfl, hp, hf, he⟩ := ih hs
        have hc : l.IsReadable := ⟨c.statement, (Command.ofLine_eq_ok_iff.mp hl).2⟩
        exact ⟨l :: pre, l', post, f, rfl, List.forall_mem_cons.mpr ⟨hc, hp⟩, hf, he⟩

theorem kind_of_ofLines_eq_error {ls : List Line} {e : Error} (h : ofLines ls = .error e) :
    e.kind = .malformed := by
  obtain ⟨-, l, -, f, -, -, -, rfl⟩ := exists_of_ofLines_eq_error h
  rfl

end Program

end LineScript
