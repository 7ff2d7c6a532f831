import LineScript.Proofs.Console.Agreement
import LineScript.Proofs.Session.Unterminated

/-! # Collecting lines

A draft counts the open blocks without their kinds, so its count is never above the number of blocks
that a scan has open. A text whose blocks are all closed is therefore never held back. But a closer
of the wrong kind counts too: a text may be released with a block open, and this happens exactly if
its lines are not well bracketed.
-/

namespace LineScript

open Text

namespace Program

variable {p : Program} {ts : List Text} {t : Text}

theorem renders_of_ofText (h : ofText (joined ts) = .ok p) (ht : ∀ t ∈ ts, '\n' ∉ t) :
    p.Renders ts := by
  obtain ⟨hl, hr⟩ := ofLines_eq_ok_iff.mp h
  refine ⟨hr, ?_⟩
  rw [hl, Line.texts_split, lines_joined ht]

theorem Renders.of_append_blank (h : p.Renders (ts ++ [t])) (ht : trim t = []) : p.Renders ts := by
  refine ⟨h.1, ?_⟩
  rw [h.2, contents_append_blank ht]

theorem Renders.exists_append_singleton (h : p.Renders (ts ++ [t])) (ht : trim t ≠ []) :
    ∃ (q : Program) (c : Command), p = q ++ [c] ∧ q.Renders ts ∧
      Statement.read (trim t) = .ok c.statement := by
  obtain ⟨hr, hl⟩ := h
  have hc : contents [t] = [trim t] := contents_cons ht []
  rw [contents_append, hc] at hl
  rcases List.eq_nil_or_concat' p with rfl | ⟨q, c, rfl⟩
  · simp [lines] at hl
  · have hq : lines (q ++ [c]) = lines q ++ [c.line] := by simp [lines]
    rw [hq, List.map_append] at hl
    obtain ⟨hq, hc⟩ := List.append_inj' hl rfl
    have hct : c.line.text = trim t := by simpa using hc
    refine ⟨q, c, rfl, ⟨hr.mono fun d hd => List.mem_append_left _ hd, hq⟩, ?_⟩
    rw [← hct]
    exact hr c (by simp)

end Program

namespace Draft

/-- Lines taken one by one, all but the first while a block was open, and the number then open. -/
inductive Gathered : List Text → Nat → Prop where
  | nil : Gathered [] 0
  | snoc {ts : List Text} {n : Nat} {t : Text} : Gathered ts n → (ts ≠ [] → 0 < n) →
      Gathered (ts ++ [t]) (depthAfter n (Statement.edge? (trim t)))

/--
The count is not above the number of blocks that are open, and equal to it exactly if the lines are
well bracketed.
-/
theorem Gathered.count {ts : List Text} {n : Nat} {p : Program} (h : Gathered ts n)
    (hp : p.Renders ts) :
    n ≤ (Stack.through [] p).length ∧
      (n = (Stack.through [] p).length ↔ bracketed [] (contents ts) = true) := by
  induction h generalizing p with
  | nil =>
    cases hp.eq_nil
    simp [contents, bracketed]
  | @snoc ts n t _ hpos ih =>
    by_cases ht : trim t = []
    · have he : Statement.edge? (trim t) = none := by rw [ht]; rfl
      rw [he, contents_append_blank ht]
      exact ih (hp.of_append_blank ht)
    · obtain ⟨q, c, rfl, hq, hs⟩ := hp.exists_append_singleton ht
      obtain ⟨hle, heq⟩ := ih hq
      have hturn := Stack.turn_after (Stack.through [] q) c.statement
      have hb : bracketed [] (contents (ts ++ [t])) =
          (bracketed [] (contents ts) &&
            ((Stack.through [] q).afterEdge? c.statement.edge).isSome) := by
        rw [contents_append, contents_cons ht, ← hq.2, bracketed_append hq.1]
        exact congrArg _ ((bracketed_singleton _ _).trans (by rw [Statement.edge?_of_read hs]))
      have hthrough : Stack.through [] (q ++ [c]) = (Stack.through [] q).after c.statement := by
        rw [Stack.through_append]
        rfl
      rw [hb, hthrough, Statement.edge?_of_read hs]
      refine ⟨hturn.depthAfter_le hle, ?_⟩
      rcases Nat.lt_or_eq_of_le hle with hlt | rfl
      · -- the count has fallen behind, and is not caught up with before it runs down
        have hn : 0 < n := by
          apply hpos
          rintro rfl
          cases hq.eq_nil
          simp at hlt
        have hfalse : bracketed [] (contents ts) = false := by
          simpa [Nat.ne_of_lt hlt] using heq
        simpa [hfalse] using Nat.ne_of_lt (hturn.depthAfter_lt hn hlt)
      · rw [heq.mp rfl, Bool.true_and]
        exact hturn.depthAfter_eq_iff

inductive Edit where
  | push (line : Text)
  | clear

/-- A draft, and the lines typed since a program was last released or the draft cleared. -/
structure Record where
  draft : Draft := {}
  since : List Text := []

/-- The lines from the first that is not blank: blank lines before it are not collected. -/
def collected (ts : List Text) : List Text := ts.dropWhile fun t => (trim t).isEmpty

theorem collected_append_singleton (ts : List Text) (t : Text) :
    collected (ts ++ [t]) =
      if collected ts = [] ∧ trim t = [] then [] else collected ts ++ [t] := by
  unfold collected
  rw [List.dropWhile_append]
  by_cases hc : ts.dropWhile (fun t => (trim t).isEmpty) = []
  · by_cases ht : trim t = [] <;> simp [hc, ht]
  · simp [hc]

namespace Record

def edit (r : Record) : Edit → Record
  | .push line =>
    ⟨(r.draft.push line).2, if (r.draft.push line).1.isSome then [] else r.since ++ [line]⟩
  | .clear => {}

def ofEdits (edits : List Edit) : Record := edits.foldl edit {}

/-- The draft holds the lines that were collected, with a block open. -/
structure Sound (r : Record) : Prop where
  text : r.draft.text = joined (collected r.since)
  gathered : Gathered (collected r.since) r.draft.depth
  isOpen : collected r.since ≠ [] → 0 < r.draft.depth
  unbroken : ∀ t ∈ r.since, '\n' ∉ t

theorem sound_new : Sound {} where
  text := rfl
  gathered := .nil
  isOpen := fun h => absurd rfl h
  unbroken := by simp

variable {r : Record} {line : Text}

theorem Sound.push (h : r.Sound) (line : Text) :
    (collected (r.since ++ [line]) = [] ∧ r.draft.push line = (none, {})) ∨
      collected (r.since ++ [line]) ≠ [] ∧ ∃ n, Gathered (collected (r.since ++ [line])) n ∧
        r.draft.push line =
          if n = 0 then (some (joined (collected (r.since ++ [line]))), {})
          else (none, ⟨joined (collected (r.since ++ [line])), n⟩) := by
  obtain ⟨⟨text, depth⟩, since⟩ := r
  obtain ⟨ht, hg, hpos, -⟩ := h
  dsimp only at ht hg hpos ⊢
  subst ht
  rw [collected_append_singleton]
  by_cases hb : collected since = [] ∧ trim line = []
  · left
    obtain ⟨hc, ht⟩ := hb
    rw [hc] at hg ⊢
    have hd : depth = 0 := by
      generalize hts : ([] : List Text) = ts at hg
      cases hg with
      | nil => rfl
      | snoc => simp at hts
    subst hd
    simp [Draft.push, Line.ofText, Line.isEmpty, Draft.isEmpty, ht, joined]
  · right
    rw [if_neg hb]
    refine ⟨by simp, _, hg.snoc hpos, ?_⟩
    apply Dialogue.push_joined
    exact not_and_or.mp hb

theorem Sound.edit (h : r.Sound) {e : Edit} (he : ∀ line, e = .push line → '\n' ∉ line) :
    (r.edit e).Sound := by
  cases e with
  | clear => exact sound_new
  | push line =>
    have hu : ∀ t ∈ r.since ++ [line], '\n' ∉ t := by
      simpa [or_imp, forall_and] using ⟨h.unbroken, he line rfl⟩
    unfold Record.edit
    dsimp only
    rcases h.push line with ⟨hc, hp⟩ | ⟨hc, n, hg, hp⟩
    · rw [hp]
      change Sound ⟨{}, r.since ++ [line]⟩
      exact ⟨by rw [hc]; rfl, by rw [hc]; exact .nil, fun hne => absurd hc hne, hu⟩
    · by_cases hn : n = 0
      · rw [hp, if_pos hn]
        exact sound_new
      · rw [hp, if_neg hn]
        exact ⟨rfl, hg, fun _ => Nat.pos_of_ne_zero hn, hu⟩

theorem sound_ofEdits {edits : List Edit} (h : ∀ line, .push line ∈ edits → '\n' ∉ line) :
    (ofEdits edits).Sound := by
  suffices hs : ∀ r : Record, r.Sound → (edits.foldl Record.edit r).Sound from hs {} sound_new
  induction edits with
  | nil => exact fun r hr => hr
  | cons e edits ih =>
    intro r hr
    apply ih (fun line hl => h line (List.mem_cons_of_mem e hl))
    apply hr.edit
    rintro line rfl
    exact h line List.mem_cons_self

theorem Sound.unbroken_collected (h : r.Sound) (hl : '\n' ∉ line) :
    ∀ t ∈ collected (r.since ++ [line]), '\n' ∉ t := by
  intro t ht
  rcases List.mem_append.mp ((List.dropWhile_sublist _).subset ht) with ht | ht
  · exact h.unbroken t ht
  · rw [List.mem_singleton.mp ht]
    exact hl

theorem Sound.released (h : r.Sound) {source : Text} (hp : (r.draft.push line).1 = some source) :
    source = joined (collected (r.since ++ [line])) ∧
      Gathered (collected (r.since ++ [line])) 0 := by
  rcases h.push line with ⟨-, he⟩ | ⟨-, n, hg, he⟩
  · simp [he] at hp
  · by_cases hn : n = 0
    · subst hn
      simp only [he, if_true, Option.some.injEq] at hp
      exact ⟨hp.symm, hg⟩
    · simp [he, hn] at hp

end Record

open Session (Reachable run)

/--
A text that is released from a draft and can be read has all its blocks closed exactly if its lines
are well bracketed. Then no run of it ends because a block is open; otherwise no run of it succeeds.
-/
theorem released_closed_iff_bracketed (edits : List Edit) (line : Text) {source : Text}
    {p : Program} (hedits : ∀ l, .push l ∈ edits → '\n' ∉ l) (hline : '\n' ∉ line)
    (hsource : ((Record.ofEdits edits).draft.push line).1 = some source)
    (hp : Program.ofText source = .ok p) :
    (p.scan = none ↔ bracketed [] (p.lines.map Line.text) = true) ∧
    (bracketed [] (p.lines.map Line.text) = true →
      ∀ s, Reachable s → ∀ g e, (run g s source).result = .error e → e.kind ≠ .unterminated) ∧
    (bracketed [] (p.lines.map Line.text) = false →
      ∀ s g shown, (run g s source).result ≠ .ok shown) := by
  have hsound := Record.sound_ofEdits hedits
  obtain ⟨rfl, hg⟩ := hsound.released hsource
  have hr := Program.renders_of_ofText hp (hsound.unbroken_collected hline)
  have hiff : p.scan = none ↔ bracketed [] (p.lines.map Line.text) = true :=
    calc p.scan = none
      _ ↔ p.Balanced := Program.scan_eq_none_iff
      _ ↔ 0 = (Stack.through [] p).length := by rw [eq_comm, List.length_eq_zero_iff]; rfl
      _ ↔ bracketed [] (p.lines.map Line.text) = true := hr.2 ▸ (hg.count hr).2
  refine ⟨hiff, ?_, ?_⟩
  · intro hb s hs g e he hk
    obtain ⟨u, c, b, hu, -⟩ := Session.scan_of_unterminated hs.sound hp he hk
    cases (hiff.mpr hb).symm.trans hu
  · intro hb s g shown hok
    have ht := hiff.mp (Session.scan_of_ok hp hok)
    cases hb.symm.trans ht

/-- A selection is released closed; a conditional that the closer of one releases is not. -/
theorem released_selection_and_conditional :
    (∀ s, Reachable s → ∀ g e, (run g s "REVELATION_CASE X\nENDCASE\n".toList).result = .error e →
      e.kind ≠ .unterminated) ∧
    ∀ s g shown, (run g s "IF 1 = 1 THEN\nENDCASE\n".toList).result ≠ .ok shown := by
  have hsel : Program.ofText "REVELATION_CASE X\nENDCASE\n".toList =
      .ok [⟨⟨1, "REVELATION_CASE X".toList⟩, .caseOf ['X']⟩,
        ⟨⟨2, "ENDCASE".toList⟩, .close .selection⟩] := by decide +kernel
  have hif : Program.ofText "IF 1 = 1 THEN\nENDCASE\n".toList =
      .ok [⟨⟨1, "IF 1 = 1 THEN".toList⟩, .ifThen (.compare ['1'] .equal ['1'])⟩,
        ⟨⟨2, "ENDCASE".toList⟩, .close .selection⟩] := by decide +kernel
  constructor
  · have h := released_closed_iff_bracketed
      [.push "DEFINE F AS FUNCTION".toList, .clear, .push "REVELATION_CASE X".toList]
      "ENDCASE".toList (by simp) (by simp) (by decide +kernel) hsel
    exact h.2.1 (by decide +kernel)
  · have h := released_closed_iff_bracketed [.push "IF 1 = 1 THEN".toList] "ENDCASE".toList
      (by simp) (by simp) (by decide +kernel) hif
    exact h.2.2 (by decide +kernel)

/-- A conditional is released although it is open, and its run fails for that. -/
theorem released_with_open_block :
    ∃ source p, ((Record.ofEdits [.push "IF 1 = 1 THEN".toList]).draft.push
        "ENDCASE".toList).1 = some source ∧
      Program.ofText source = .ok p ∧ p.scan = some (0, .conditional) ∧
      (run {} {} source).result =
        .error (.ofOpenBlock ⟨1, "IF 1 = 1 THEN".toList⟩ .conditional) :=
  ⟨"IF 1 = 1 THEN\nENDCASE\n".toList,
    [⟨⟨1, "IF 1 = 1 THEN".toList⟩, .ifThen (.compare ['1'] .equal ['1'])⟩,
      ⟨⟨2, "ENDCASE".toList⟩, .close .selection⟩],
    by decide +kernel, by decide +kernel, by decide +kernel, by decide +kernel⟩

/--
A text is not held back once its blocks are all closed. If what has been collected since the last
release, with the line that is typed, is not empty and can be read, and the scan of it stops
nowhere, it is released with that line.
-/
theorem closed_text_released (edits : List Edit) (line : Text) {p : Program}
    (hedits : ∀ l, .push l ∈ edits → '\n' ∉ l) (hline : '\n' ∉ line) :
    let text := joined (collected ((Record.ofEdits edits).since ++ [line]))
    text ≠ [] → Program.ofText text = .ok p → p.scan = none →
      ((Record.ofEdits edits).draft.push line).1 = some text := by
  intro text hne hp hscan
  have hsound := Record.sound_ofEdits hedits
  have hr := Program.renders_of_ofText hp (hsound.unbroken_collected hline)
  rcases hsound.push line with ⟨hc, -⟩ | ⟨-, n, hg, he⟩
  · exact absurd (by simp [text, hc, joined]) hne
  · have hn : n = 0 := by
      have hle := (hg.count hr).1
      rw [Program.scan_eq_none_iff.mp hscan] at hle
      exact Nat.le_zero.mp hle
    rw [he, if_pos hn]

/-- A conditional after a blank line, and with one inside, and a closer that closes nothing. -/
theorem closed_texts_released :
    ((Record.ofEdits [.push [], .push "IF 1 = 1 THEN".toList, .push []]).draft.push
        "ENDIF".toList).1 = some "IF 1 = 1 THEN\n\nENDIF\n".toList ∧
      ((Record.ofEdits [.push "X = 1".toList]).draft.push "ENDCASE".toList).1 =
        some "ENDCASE\n".toList := by
  constructor
  · exact closed_text_released [.push [], .push "IF 1 = 1 THEN".toList, .push []] "ENDIF".toList
      (p := [⟨⟨1, "IF 1 = 1 THEN".toList⟩, .ifThen (.compare ['1'] .equal ['1'])⟩,
        ⟨⟨3, "ENDIF".toList⟩, .close .conditional⟩])
      (by simp) (by simp) (by decide +kernel) (by decide +kernel) (by decide +kernel)
  · exact closed_text_released [.push "X = 1".toList] "ENDCASE".toList
      (p := [⟨⟨1, "ENDCASE".toList⟩, .close .selection⟩])
      (by simp) (by simp) (by decide +kernel) (by decide +kernel) (by decide +kernel)

end Draft

end LineScript
