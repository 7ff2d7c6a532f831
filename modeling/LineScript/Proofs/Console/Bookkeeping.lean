import LineScript.Proofs.Console.Collecting

/-! # The bookkeeping of a dialogue

Each time the terminal is asked for a line, the prompt shown is that of the draft, the history has
every line that was typed and is not blank, and every line typed so far is accounted for: it was run
as part of a program, it was dropped by an interrupt, it was blank or a reset with an empty draft,
or it is still held. The account is kept in the order of the readings, and the session and all that
was written are what it says.
-/

namespace LineScript

open Text

namespace Exchange

def reading? : Exchange → Option Reading
  | read r => some r
  | _ => none

def prompt? : Exchange → Option Text
  | prompt text => some text
  | _ => none

def remembered? : Exchange → Option Text
  | history line => some line
  | _ => none

def written? : Exchange → Option Text
  | write text => some text
  | _ => none

theorem reading?_append_read (log log' : List Exchange) (r : Reading) :
    (log ++ .read r :: log').filterMap reading? =
      log.filterMap reading? ++ r :: log'.filterMap reading? :=
  List.filterMap_append

theorem filterMap_append_read {α : Type} {f : Exchange → Option α} {r : Reading}
    (hf : f (.read r) = none) (log log' : List Exchange) :
    (log ++ .read r :: log').filterMap f = log.filterMap f ++ log'.filterMap f := by
  rw [List.filterMap_append, List.filterMap_cons_none hf]

end Exchange

def Reading.line? : Reading → Option Text
  | typed line => some line
  | _ => none

inductive Fate where
  /-- They were released together as a program, and run. -/
  | ran (lines : List Text)
  /-- They were in the draft when an interrupt came. -/
  | dropped (lines : List Text)
  /-- A blank line, typed into an empty draft. -/
  | blank (line : Text)
  /-- The line that resets the session, typed into an empty draft. -/
  | reset (line : Text)

def Draft.Begun (ts : List Text) : Prop :=
  ∀ t ∈ ts.head?, trim t ≠ [] ∧ trim t ≠ Dialogue.resetLine

namespace Fate

open Draft

def readings : Fate → List Reading
  | ran ts => ts.map .typed
  | dropped ts => ts.map .typed ++ [.signal .interrupt]
  | blank t | reset t => [.typed t]

/--
The lines met this fate with reason. A program that was run had a block open after each of its lines
but the last, and lines that were dropped had one open after the last.
-/
def Fits : Fate → Prop
  | ran ts => ts ≠ [] ∧ Begun ts ∧ Gathered ts 0
  | dropped ts => Begun ts ∧ ∃ n, Gathered ts n ∧ (ts ≠ [] → 0 < n)
  | blank t => trim t = []
  | reset t => trim t = Dialogue.resetLine

def settle (g : Guard) (st : Session × List Text) : Fate → Session × List Text
  | ran ts =>
    let report := Session.run g st.1 (joined ts)
    (report.session, st.2 ++ [Dialogue.written report.result])
  | reset _ => (st.1.reset, st.2)
  | dropped _ | blank _ => st

end Fate

/-- What has become of all lines typed so far: the fates that are settled, and the lines held. -/
structure Ledger where
  fates : List Fate := []
  held : List Text := []

namespace Ledger

def readings (a : Ledger) : List Reading := a.fates.flatMap Fate.readings ++ a.held.map .typed

/-- The ledger accounts for what has happened and for the dialogue it has come to. -/
structure Accounts (g : Guard) (log : List Exchange) (d : Dialogue) (a : Ledger) : Prop where
  readings : log.filterMap Exchange.reading? = a.readings
  fits : ∀ f ∈ a.fates, f.Fits
  settled : a.fates.foldl (Fate.settle g) ({}, []) = (d.session, log.filterMap Exchange.written?)
  text : d.draft.text = joined a.held
  begun : Draft.Begun a.held
  gathered : Draft.Gathered a.held d.draft.depth
  isOpen : a.held ≠ [] → 0 < d.draft.depth

end Ledger

namespace Dialogue

variable {g : Guard} {d d' : Dialogue} {log log' : List Exchange} {r : Reading} {line : Text}

/--
What a reading makes of a dialogue, and what happens before the next one; some readings end it.
-/
def answer? (g : Guard) (d : Dialogue) : Reading → Option (Dialogue × List Exchange)
  | .typed line => some (d.typed g line)
  | .signal .interrupt => some d.interrupted
  | .signal _ | .failure _ | .endOfInput => none

theorem play_cons_of_answer (h : d.answer? g r = some (d', log)) (rs : List Reading) :
    (play g d (r :: rs)).log = .read r :: (log ++ (play g d' rs).log) ∧
      (play g d (r :: rs)).dialogue = (play g d' rs).dialogue := by
  cases r with
  | typed line =>
    have ht : d.typed g line = (d', log) := by simpa [answer?] using h
    simp [play, ht]
  | signal s =>
    cases s with
    | interrupt =>
      have ht : d.interrupted = (d', log) := by simpa [answer?] using h
      simp [play, ht]
    | _ => cases h
  | failure reason => cases h
  | endOfInput => cases h

theorem play_cons_of_end (h : d.answer? g r = none) (rs : List Reading) :
    (play g d (r :: rs)).log = [.read r] ∧ (play g d (r :: rs)).dialogue = d := by
  cases r with
  | typed line => cases h
  | signal s =>
    cases s with
    | interrupt => cases h
    | _ => exact ⟨rfl, rfl⟩
  | failure reason => exact ⟨rfl, rfl⟩
  | endOfInput => exact ⟨rfl, rfl⟩

theorem exists_log_play (g : Guard) (d : Dialogue) (rs : List Reading) :
    ∃ r after, (play g d rs).log = .read r :: after := by
  cases rs with
  | nil => exact ⟨_, _, rfl⟩
  | cons r rs =>
    cases h : d.answer? g r with
    | none => exact ⟨r, [], (play_cons_of_end h rs).1⟩
    | some a =>
      obtain ⟨d', log⟩ := a
      exact ⟨r, _, (play_cons_of_answer h rs).1⟩

/--
What comes of a line that is typed: what happens before the next reading, and the dialogue then.
-/
structure Handled (g : Guard) (d : Dialogue) (line : Text) (log : List Exchange) (d' : Dialogue) :
    Prop where
  unread : log.filterMap Exchange.reading? = []
  history : log.filterMap Exchange.remembered? = if trim line = [] then [] else [line]
  reset : d.draft.text = [] → trim line = resetLine →
    d' = { d with session := d.session.reset } ∧ log.filterMap Exchange.prompt? = [] ∧
      log.filterMap Exchange.written? = []
  pushed : ¬ (d.draft.text = [] ∧ trim line = resetLine) →
    d'.draft = (d.draft.push line).2 ∧ log.filterMap Exchange.prompt? = [d'.draft.prompt]
  held : ¬ (d.draft.text = [] ∧ trim line = resetLine) → (d.draft.push line).1 = none →
    d'.session = d.session ∧ log.filterMap Exchange.written? = []
  released : ∀ source, ¬ (d.draft.text = [] ∧ trim line = resetLine) →
    (d.draft.push line).1 = some source →
    d'.session = (Session.run g d.session source).session ∧
      log.filterMap Exchange.written? = [written (Session.run g d.session source).result]

def entry (line : Text) : List Exchange := if trim line = [] then [] else [.history line]

theorem remembered?_entry (line : Text) (log : List Exchange) :
    (entry line ++ log).filterMap Exchange.remembered? =
      (if trim line = [] then [] else [line]) ++ log.filterMap Exchange.remembered? := by
  unfold entry
  split <;> rfl

theorem filterMap_entry {α : Type} {f : Exchange → Option α} (hf : ∀ t, f (.history t) = none)
    (line : Text) (log : List Exchange) : (entry line ++ log).filterMap f = log.filterMap f := by
  unfold entry
  split <;> simp [hf]

theorem handled_push (hr : ¬ (d.draft.text = [] ∧ trim line = resetLine)) (g : Guard) :
    Handled g d line (entry line ++ (d.push g line).2) (d.push g line).1 := by
  have hread := filterMap_entry (f := Exchange.reading?) (fun _ => rfl) line
  have hprompt := filterMap_entry (f := Exchange.prompt?) (fun _ => rfl) line
  have hwrite := filterMap_entry (f := Exchange.written?) (fun _ => rfl) line
  unfold push
  cases hp : d.draft.push line with
  | mk released draft =>
    cases released with
    | none =>
      exact
        { unread := hread _
          history := remembered?_entry line _ |>.trans (List.append_nil _)
          reset := fun h h' => absurd ⟨h, h'⟩ hr
          pushed := fun _ => ⟨by rw [hp], hprompt _⟩
          held := fun _ _ => ⟨rfl, hwrite _⟩
          released := fun source _ h => by cases hp ▸ h }
    | some source =>
      exact
        { unread := hread _
          history := remembered?_entry line _ |>.trans (List.append_nil _)
          reset := fun h h' => absurd ⟨h, h'⟩ hr
          pushed := fun _ => ⟨by rw [hp], hprompt _⟩
          held := fun _ h => by cases hp ▸ h
          released := fun source' _ h => by
            cases hp ▸ h
            exact ⟨rfl, hwrite _⟩ }

theorem handled_typed (g : Guard) (d : Dialogue) (line : Text) :
    Handled g d line (d.typed g line).2 (d.typed g line).1 := by
  by_cases hr : d.draft.text = [] ∧ trim line = resetLine
  · have hne : (resetLine : Text).isEmpty = false := rfl
    have ht : d.typed g line = ({ d with session := d.session.reset }, [.history line]) := by
      simp [typed, Draft.isEmpty, hr, hne]
    rw [ht]
    refine ⟨rfl, ?_, fun _ _ => ⟨rfl, rfl, rfl⟩, fun h => absurd hr h, fun h => absurd hr h,
      fun _ h => absurd hr h⟩
    rw [hr.2]
    rfl
  · have hc : (d.draft.isEmpty && trim line == resetLine) = false := by
      simpa [Draft.isEmpty] using hr
    have ht : d.typed g line = ((d.push g line).1, entry line ++ (d.push g line).2) := by
      simp [typed, hc, entry]
    rw [ht]
    exact handled_push hr g

theorem unread_of_answer (h : d.answer? g r = some (d', log)) :
    log.filterMap Exchange.reading? = [] := by
  cases r with
  | typed line =>
    obtain ⟨rfl, rfl⟩ : (d.typed g line).1 = d' ∧ (d.typed g line).2 = log := by
      simpa [answer?, Prod.ext_iff] using h
    exact (handled_typed g d line).unread
  | signal s =>
    cases s with
    | interrupt =>
      cases h
      rfl
    | _ => cases h
  | failure reason => cases h
  | endOfInput => cases h

/-- The terminal is asked for a line; `log` has happened, and the dialogue has come to `d`. -/
inductive Asks (g : Guard) : List Exchange → Dialogue → Prop where
  | first : Asks g [.opened title, .reportInterrupts, .prompt (Draft.prompt {})] {}
  | next {log log' : List Exchange} {d d' : Dialogue} {r : Reading} : Asks g log d →
      d.answer? g r = some (d', log') → Asks g (log ++ .read r :: log') d'

theorem exists_of_append_eq {log rest before after : List Exchange}
    (hlog : log.filterMap Exchange.reading? = []) (h : log ++ rest = before ++ .read r :: after) :
    ∃ between, before = log ++ between ∧ rest = between ++ .read r :: after := by
  rcases List.append_eq_append_iff.mp h with ⟨between, hb, hr⟩ | ⟨between, hb, hr⟩
  · exact ⟨between, hb, hr⟩
  · cases between with
    | nil => exact ⟨[], by simpa using hb.symm, by simpa using hr.symm⟩
    | cons x between =>
      cases hr
      rw [hb, Exchange.reading?_append_read] at hlog
      simp at hlog

/-- Every reading of a dialogue is one for which the terminal was asked. -/
theorem asks_of_play {past : List Exchange} (hd : Asks g past d) {script : List Reading}
    {before after : List Exchange} (h : (play g d script).log = before ++ .read r :: after) :
    ∃ e, Asks g (past ++ before) e ∧
      (∀ rs, (play g d (before.filterMap Exchange.reading? ++ rs)).dialogue =
        (play g e rs).dialogue) ∧
      before.filterMap Exchange.reading? ++ [r] <+: script ++ [.endOfInput] ∧
      (e.answer? g r = none ∧ after = [] ∧ (play g d script).dialogue = e ∨
        ∃ e' log r' after', e.answer? g r = some (e', log) ∧
          after = log ++ .read r' :: after') := by
  have hone {x : Reading} {before : List Exchange} (h : [.read x] = before ++ .read r :: after) :
      before = [] ∧ r = x ∧ after = [] := by
    cases before with
    | nil =>
      cases h
      exact ⟨rfl, rfl, rfl⟩
    | cons y before => simp at h
  induction script generalizing d past before with
  | nil =>
    obtain ⟨rfl, rfl, rfl⟩ := hone h
    exact ⟨d, by simpa using hd, fun _ => rfl, List.prefix_rfl, .inl ⟨rfl, rfl, rfl⟩⟩
  | cons r₁ rs ih =>
    cases ha : d.answer? g r₁ with
    | none =>
      obtain ⟨hlog, hend⟩ := play_cons_of_end ha rs
      rw [hlog] at h
      obtain ⟨rfl, rfl, rfl⟩ := hone h
      exact ⟨d, by simpa using hd, fun _ => rfl, by simp, .inl ⟨ha, rfl, hend⟩⟩
    | some a =>
      obtain ⟨d₁, log₁⟩ := a
      obtain ⟨hlog, hend⟩ := play_cons_of_answer ha rs
      rw [hlog] at h
      cases before with
      | nil =>
        cases h
        obtain ⟨r', after', hl⟩ := exists_log_play g d₁ rs
        exact ⟨d, by simpa using hd, fun _ => rfl, by simp,
          .inr ⟨d₁, log₁, r', after', ha, by rw [hl]⟩⟩
      | cons x before =>
        obtain ⟨rfl, htail⟩ := List.cons_eq_cons.mp h
        have hu := unread_of_answer ha
        obtain ⟨between, rfl, hrest⟩ := exists_of_append_eq hu htail
        obtain ⟨e, he, hplay, hpre, hnext⟩ := ih (hd.next ha) hrest
        have hread : (Exchange.read r₁ :: (log₁ ++ between)).filterMap Exchange.reading? =
            r₁ :: between.filterMap Exchange.reading? := by
          refine congrArg (r₁ :: ·) ?_
          rw [List.filterMap_append, hu, List.nil_append]
        refine ⟨e, by simpa using he, fun rs' => ?_, ?_, hend ▸ hnext⟩
        · rw [hread, List.cons_append, (play_cons_of_answer ha _).2, hplay]
        · rw [hread]
          simpa using hpre

end Dialogue

namespace Draft

theorem Gathered.eq_zero {n : Nat} (h : Gathered [] n) : n = 0 := by
  generalize hts : ([] : List Text) = ts at h
  cases h with
  | nil => rfl
  | snoc => simp at hts

theorem Begun.snoc {ts : List Text} {t : Text} (h : Begun ts)
    (ht : ts = [] → trim t ≠ [] ∧ trim t ≠ Dialogue.resetLine) : Begun (ts ++ [t]) := by
  cases ts with
  | nil =>
    intro u hu
    cases hu
    exact ht rfl
  | cons t' ts => exact h

end Draft

namespace Ledger.Accounts

open Dialogue Draft

variable {g : Guard} {log log' : List Exchange} {d d' : Dialogue} {a : Ledger} {line : Text}

theorem text_eq_nil_iff (h : a.Accounts g log d) : d.draft.text = [] ↔ a.held = [] := by
  rw [h.text, ← List.isEmpty_iff, isEmpty_joined, List.isEmpty_iff]

theorem draft_eq (h : a.Accounts g log d) : d.draft = ⟨joined a.held, d.draft.depth⟩ := by
  rw [← h.text]

theorem close (h : a.Accounts g log d) {f : Fate} (hf : f.Fits)
    (hr : f.readings = a.held.map .typed ++ log'.filterMap Exchange.reading?)
    (hs : f.settle g (d.session, log.filterMap Exchange.written?) =
      (d'.session, (log ++ log').filterMap Exchange.written?)) (hd : d'.draft = {}) :
    Accounts g (log ++ log') d' ⟨a.fates ++ [f], []⟩ where
  readings := by
    rw [List.filterMap_append, h.readings]
    simp [Ledger.readings, hr]
  fits := by
    intro f' hf'
    rcases List.mem_append.mp hf' with hf' | hf'
    · exact h.fits f' hf'
    · rw [List.mem_singleton.mp hf']
      exact hf
  settled := by
    rw [List.foldl_append, h.settled]
    exact hs
  text := by rw [hd]; rfl
  begun := by
    intro t ht
    cases ht
  gathered := by
    rw [hd]
    exact .nil
  isOpen := fun hne => absurd rfl hne

theorem interrupt (h : a.Accounts g log d) :
    Accounts g (log ++ .read (.signal .interrupt) :: d.interrupted.2) d.interrupted.1
      ⟨a.fates ++ [.dropped a.held], []⟩ := by
  refine h.close ⟨h.begun, _, h.gathered, h.isOpen⟩ rfl ?_ rfl
  rw [Exchange.filterMap_append_read rfl]
  exact congrArg _ (List.append_nil _).symm

theorem draft_of_held (h : a.Accounts g log d) (hheld : a.held = []) : d.draft = {} := by
  have hz := (hheld ▸ h.gathered).eq_zero
  rw [h.draft_eq, hheld, hz]
  rfl

section Typed

variable (h : a.Accounts g log d) (hh : Handled g d line log' d')

include hh

theorem filterMap_reading?_typed :
    (Exchange.read (.typed line) :: log').filterMap Exchange.reading? = [.typed line] :=
  congrArg (_ :: ·) hh.unread

include h

theorem typed_reset (ht : d.draft.text = []) (hl : trim line = resetLine) :
    Accounts g (log ++ .read (.typed line) :: log') d' ⟨a.fates ++ [.reset line], []⟩ := by
  obtain ⟨rfl, -, hw⟩ := hh.reset ht hl
  have hheld := h.text_eq_nil_iff.mp ht
  refine h.close (f := .reset line) hl ?_ ?_ (h.draft_of_held hheld)
  · rw [filterMap_reading?_typed hh, hheld]
    rfl
  · rw [Exchange.filterMap_append_read rfl, hw, List.append_nil]
    rfl

theorem typed_blank (hheld : a.held = []) (hl : trim line = []) :
    Accounts g (log ++ .read (.typed line) :: log') d' ⟨a.fates ++ [.blank line], []⟩ := by
  have hr : ¬ (d.draft.text = [] ∧ trim line = resetLine) := by
    rw [hl]
    simp [resetLine]
  have hpush : d.draft.push line = (none, {}) := by
    rw [h.draft_of_held hheld]
    simp [Draft.push, Line.ofText, Line.isEmpty, Draft.isEmpty, hl]
  obtain ⟨hdraft, -⟩ := hh.pushed hr
  obtain ⟨hs, hw⟩ := hh.held hr (by rw [hpush])
  refine h.close (f := .blank line) hl ?_ ?_ (by rw [hdraft, hpush])
  · rw [filterMap_reading?_typed hh, hheld]
    rfl
  · rw [Exchange.filterMap_append_read rfl, hw, hs, List.append_nil]
    rfl

section Pushed

variable (hr : ¬ (d.draft.text = [] ∧ trim line = resetLine))
  (hb : ¬ (a.held = [] ∧ trim line = []))

include hr hb

omit hh in
theorem push_line :
    Begun (a.held ++ [line]) ∧
      Gathered (a.held ++ [line]) (depthAfter d.draft.depth (Statement.edge? (trim line))) ∧
      d.draft.push line =
        if depthAfter d.draft.depth (Statement.edge? (trim line)) = 0 then
          (some (joined (a.held ++ [line])), {})
        else (none, ⟨joined (a.held ++ [line]),
          depthAfter d.draft.depth (Statement.edge? (trim line))⟩) := by
  refine ⟨?_, h.gathered.snoc h.isOpen, ?_⟩
  · refine h.begun.snoc fun hheld => ⟨fun ht => hb ⟨hheld, ht⟩, fun ht => hr ⟨?_, ht⟩⟩
    exact h.text_eq_nil_iff.mpr hheld
  · rw [h.draft_eq]
    exact push_joined (not_and_or.mp hb)

theorem typed_released (hn : depthAfter d.draft.depth (Statement.edge? (trim line)) = 0) :
    Accounts g (log ++ .read (.typed line) :: log') d'
      ⟨a.fates ++ [.ran (a.held ++ [line])], []⟩ := by
  obtain ⟨hbegun, hgathered, hpush⟩ := h.push_line hr hb
  rw [hn] at hgathered
  rw [if_pos hn] at hpush
  obtain ⟨hdraft, -⟩ := hh.pushed hr
  obtain ⟨hs, hw⟩ := hh.released _ hr (by rw [hpush])
  refine h.close (f := .ran (a.held ++ [line])) ⟨by simp, hbegun, hgathered⟩ ?_ ?_
    (by rw [hdraft, hpush])
  · rw [filterMap_reading?_typed hh]
    exact List.map_append
  · rw [Exchange.filterMap_append_read rfl, hw, hs]
    rfl

theorem typed_held (hn : depthAfter d.draft.depth (Statement.edge? (trim line)) ≠ 0) :
    Accounts g (log ++ .read (.typed line) :: log') d' ⟨a.fates, a.held ++ [line]⟩ := by
  obtain ⟨hbegun, hgathered, hpush⟩ := h.push_line hr hb
  rw [if_neg hn] at hpush
  obtain ⟨hdraft, -⟩ := hh.pushed hr
  obtain ⟨hs, hw⟩ := hh.held hr (by rw [hpush])
  rw [hpush] at hdraft
  refine ⟨?_, h.fits, ?_, by rw [hdraft], hbegun, by rw [hdraft]; exact hgathered, fun _ => ?_⟩
  · rw [List.filterMap_append, filterMap_reading?_typed hh, h.readings]
    simp [Ledger.readings]
  · rw [Exchange.filterMap_append_read rfl, hw, hs, List.append_nil]
    exact h.settled
  · rw [hdraft]
    exact Nat.pos_of_ne_zero hn

end Pushed

theorem typed : ∃ a' : Ledger, a'.Accounts g (log ++ .read (.typed line) :: log') d' := by
  by_cases hr : d.draft.text = [] ∧ trim line = resetLine
  · exact ⟨_, h.typed_reset hh hr.1 hr.2⟩
  by_cases hb : a.held = [] ∧ trim line = []
  · exact ⟨_, h.typed_blank hh hb.1 hb.2⟩
  by_cases hn : depthAfter d.draft.depth (Statement.edge? (trim line)) = 0
  · exact ⟨_, h.typed_released hh hr hb hn⟩
  · exact ⟨_, h.typed_held hh hr hb hn⟩

end Typed

end Ledger.Accounts

namespace Dialogue

variable {g : Guard} {log log' : List Exchange} {d d' : Dialogue} {r : Reading} {line : Text}

structure Standing (g : Guard) (log : List Exchange) (d : Dialogue) : Prop where
  prompt : (log.filterMap Exchange.prompt?).getLast? = some d.draft.prompt
  history : log.filterMap Exchange.remembered? =
    ((log.filterMap Exchange.reading?).filterMap Reading.line?).filter (trim · ≠ [])
  ledger : ∃ a : Ledger, a.Accounts g log d

theorem standing_first :
    Standing g [.opened title, .reportInterrupts, .prompt (Draft.prompt {})] {} where
  prompt := rfl
  history := rfl
  ledger := ⟨{}, rfl, by simp, rfl, rfl, fun t ht => (by cases ht), .nil, fun h => absurd rfl h⟩

theorem Standing.interrupt (h : Standing g log d) :
    Standing g (log ++ .read (.signal .interrupt) :: d.interrupted.2) d.interrupted.1 where
  prompt := by
    rw [Exchange.filterMap_append_read rfl]
    exact List.getLast?_concat
  history := by
    rw [Exchange.filterMap_append_read rfl, Exchange.reading?_append_read, List.filterMap_append,
      List.filter_append, h.history]
    rfl
  ledger := by
    obtain ⟨a, ha⟩ := h.ledger
    exact ⟨_, ha.interrupt⟩

theorem Standing.typed (h : Standing g log d) (hh : Handled g d line log' d') :
    Standing g (log ++ .read (.typed line) :: log') d' where
  prompt := by
    rw [Exchange.filterMap_append_read rfl]
    by_cases hr : d.draft.text = [] ∧ trim line = resetLine
    · obtain ⟨rfl, hp, -⟩ := hh.reset hr.1 hr.2
      rw [hp, List.append_nil]
      exact h.prompt
    · rw [(hh.pushed hr).2]
      exact List.getLast?_concat
  history := by
    rw [Exchange.filterMap_append_read rfl, Exchange.reading?_append_read, hh.unread,
      List.filterMap_append, List.filter_append, h.history, hh.history]
    by_cases hb : trim line = [] <;> simp [Reading.line?, hb]
  ledger := by
    obtain ⟨a, ha⟩ := h.ledger
    exact ha.typed hh

theorem Standing.answer (h : Standing g log d) (ha : d.answer? g r = some (d', log')) :
    Standing g (log ++ .read r :: log') d' := by
  cases r with
  | typed line =>
    obtain ⟨rfl, rfl⟩ : (d.typed g line).1 = d' ∧ (d.typed g line).2 = log' := by
      simpa [answer?, Prod.ext_iff] using ha
    exact h.typed (handled_typed g d line)
  | signal s =>
    cases s with
    | interrupt =>
      cases ha
      exact h.interrupt
    | _ => cases ha
  | failure reason => cases ha
  | endOfInput => cases ha

theorem Asks.standing (h : Asks g log d) : Standing g log d := by
  induction h with
  | first => exact standing_first
  | next _ ha ih => exact ih.answer ha

theorem Standing.session_of_reset (h : Standing g log d) (hl : trim line = resetLine) :
    (d.typed g line).1.session = if d.draft.text = [] then d.session.reset else d.session := by
  have hh := handled_typed g d line
  split
  · next ht => rw [(hh.reset ht hl).1]
  · next ht =>
    have hr : ¬ (d.draft.text = [] ∧ trim line = resetLine) := fun h => ht h.1
    obtain ⟨a, ha⟩ := h.ledger
    have hheld : a.held ≠ [] := fun hn => ht (ha.text_eq_nil_iff.mpr hn)
    have he : Statement.edge? (trim line) = none := by
      rw [hl]
      rfl
    obtain ⟨-, -, hpush⟩ := ha.push_line hr fun hb => hheld hb.1
    have hn : Draft.depthAfter d.draft.depth (Statement.edge? (trim line)) ≠ 0 := by
      rw [he]
      exact Nat.ne_of_gt (ha.isOpen hheld)
    rw [if_neg hn] at hpush
    exact (hh.held hr (by rw [hpush])).1

theorem Standing.text_ne_nil_iff (h : Standing g log d) :
    d.draft.text ≠ [] ↔ 0 < d.draft.depth := by
  obtain ⟨a, ha⟩ := h.ledger
  rw [ne_eq, ha.text_eq_nil_iff]
  refine ⟨ha.isOpen, fun hpos hheld => ?_⟩
  rw [ha.draft_of_held hheld] at hpos
  exact Nat.lt_irrefl 0 hpos

/--
The books of a dialogue are kept. Whenever a line is read, the prompt set last is the one that tells
whether the draft holds text, which it does exactly if a block is open; the history has the lines
typed so far that are not blank; and a ledger accounts for all readings so far, in their order: for
the programs run, each once in the one session and with one text written, for the lines dropped by
interrupts, for blank lines and resets, and for the lines still held. A line that is typed is
handled as the draft says, and an interrupt does no more than drop the draft and set the prompt. A
reset changes the session exactly if the draft is empty, and then there are no variables and no
functions.
-/
theorem books_kept (g : Guard) (script : List Reading) {before after : List Exchange} {r : Reading}
    (h : (start g none script).log = before ++ .read r :: after) :
    let read := before.filterMap Exchange.reading?
    let d := (start g none read).dialogue
    let next := (start g none (read ++ [r])).dialogue
    read ++ [r] <+: script ++ [.endOfInput] ∧
    (before.filterMap Exchange.prompt?).getLast? =
      some (if d.draft.text = [] then ['>', ' '] else ['.', ' ']) ∧
    (d.draft.text ≠ [] ↔ 0 < d.draft.depth) ∧
    before.filterMap Exchange.remembered? = (read.filterMap Reading.line?).filter (trim · ≠ []) ∧
    (∃ a : Ledger, a.Accounts g before d) ∧
    (∀ line, r = .typed line → ∃ log r' after', after = log ++ .read r' :: after' ∧
      Handled g d line log next) ∧
    (∀ line, r = .typed line → trim line = resetLine →
      (next.session = if d.draft.text = [] then d.session.reset else d.session) ∧
      (d.draft.text = [] → next.session.vars = {} ∧ next.session.functions = {})) ∧
    (r = .signal .interrupt → next = { d with draft := {} } ∧
      ∃ r' after', after = .prompt ['>', ' '] :: .read r' :: after') ∧
    ((∀ line, r ≠ .typed line) → r ≠ .signal .interrupt →
      after = [] ∧ (start g none script).dialogue = d) := by
  intro read d next
  have hopen : [.opened title, .reportInterrupts, .prompt (Draft.prompt {})] ++
      (play g {} script).log = before ++ .read r :: after := h
  obtain ⟨between, hbefore, hplay⟩ := exists_of_append_eq rfl hopen
  obtain ⟨e, hasks, hdialogue, hpre, hlast⟩ := asks_of_play .first hplay
  rw [← hbefore] at hasks
  have hread : read = between.filterMap Exchange.reading? := by
    simp only [read, hbefore]
    rfl
  rw [← hread] at hdialogue hpre
  have hd : d = e := by
    have hnil := hdialogue []
    rwa [List.append_nil] at hnil
  have hnext : next = (play g e [r]).dialogue := hdialogue [r]
  have hs := hasks.standing
  rw [hnext, hd]
  refine ⟨hpre, ?_, hs.text_ne_nil_iff, hs.history, hs.ledger, ?_, ?_, ?_, ?_⟩
  · rw [hs.prompt, Draft.prompt, Draft.isEmpty]
    simp
  · rintro line rfl
    rcases hlast with ⟨ha, -⟩ | ⟨e', log, r', after', ha, rfl⟩
    · cases ha
    · have ht : e.typed g line = (e', log) := by simpa [answer?] using ha
      have hh := handled_typed g e line
      rw [ht] at hh
      exact ⟨log, r', after', rfl, (play_cons_of_answer ha []).2 ▸ hh⟩
  · rintro line rfl hl
    have hreset := hs.session_of_reset hl
    refine ⟨hreset, fun ht => ?_⟩
    rw [if_pos ht] at hreset
    exact ⟨congrArg Session.vars hreset, congrArg Session.functions hreset⟩
  · rintro rfl
    rcases hlast with ⟨ha, -⟩ | ⟨e', log, r', after', ha, rfl⟩
    · cases ha
    · cases ha
      exact ⟨rfl, r', after', rfl⟩
  · intro ht hi
    rcases hlast with ⟨-, ha, hend⟩ | ⟨e', log, r', after', ha, -⟩
    · exact ⟨ha, hend⟩
    · cases r with
      | typed line => exact absurd rfl (ht line)
      | signal s =>
        cases s with
        | interrupt => exact absurd rfl hi
        | _ => cases ha
      | failure reason => cases ha
      | endOfInput => cases ha

/-- A variable is forgotten by a reset, and a conditional is dropped by an interrupt. -/
theorem books_of_interrupted_draft :
    ∃ (script : List Reading) (before after : List Exchange),
      script = [.typed "X = 1".toList, .typed "RESET".toList, .typed "IF X = 1 THEN".toList,
        .typed [], .signal .interrupt, .typed "PRINT(X)".toList] ∧
      (start {} none script).log = before ++ .read (.signal .interrupt) :: after ∧
      (before.filterMap Exchange.prompt?).getLast? = some ['.', ' '] ∧
      before.filterMap Exchange.remembered? =
        ["X = 1".toList, "RESET".toList, "IF X = 1 THEN".toList] ∧
      (∃ a : Ledger, a.readings = script.take 4 ∧ ∀ f ∈ a.fates, f.Fits) ∧
      (∃ r' after', after = .prompt ['>', ' '] :: .read r' :: after') ∧
      (start {} none (script.take 1)).dialogue.session.vars.get? ['X'] = some (.number ['1']) ∧
      (start {} none (script.take 2)).dialogue.session.vars = {} := by
  obtain ⟨script, hscript⟩ : ∃ script, script = [Reading.typed "X = 1".toList,
    .typed "RESET".toList, .typed "IF X = 1 THEN".toList, .typed [], .signal .interrupt,
    .typed "PRINT(X)".toList] := ⟨_, rfl⟩
  obtain ⟨first, hfirst⟩ : ∃ first : List Exchange, first =
      [.opened title, .reportInterrupts, .prompt ['>', ' '], .read (.typed "X = 1".toList),
        .history "X = 1".toList, .prompt ['>', ' '], .write "No output generated.\n".toList] :=
    ⟨_, rfl⟩
  obtain ⟨second, hsecond⟩ : ∃ second : List Exchange, second =
      [.history "RESET".toList, .read (.typed "IF X = 1 THEN".toList),
        .history "IF X = 1 THEN".toList, .prompt ['.', ' '], .read (.typed []),
        .prompt ['.', ' ']] := ⟨_, rfl⟩
  have hreset : (start {} none script).log = first ++ .read (.typed "RESET".toList) ::
      (second ++ .read (.signal .interrupt) ::
        [.prompt ['>', ' '], .read (.typed "PRINT(X)".toList), .history "PRINT(X)".toList,
          .prompt ['>', ' '], .write "X\n".toList, .read .endOfInput]) := by
    rw [hscript, hfirst, hsecond]
    decide +kernel
  have hinterrupt := hreset
  rw [← List.cons_append, ← List.append_assoc] at hinterrupt
  obtain ⟨-, -, -, hhistory, ⟨a, ha⟩, -, -, hcut, -⟩ := books_kept {} script hinterrupt
  obtain ⟨-, -, -, -, -, -, hclear, -⟩ := books_kept {} script hreset
  refine ⟨script, _, _, hscript, hinterrupt, ?_, ?_, ⟨a, ?_, ha.fits⟩, (hcut rfl).2, ?_, ?_⟩
  · rw [hfirst, hsecond]
    rfl
  · rw [hhistory, hfirst, hsecond]
    decide +kernel
  · rw [← ha.readings, hscript, hfirst, hsecond]
    rfl
  · rw [hscript]
    decide +kernel
  · have hforgotten := (hclear _ rfl (by decide)).2 (by rw [hfirst]; decide +kernel)
    rw [hfirst] at hforgotten
    rw [hscript]
    exact hforgotten.1

end Dialogue

end LineScript
