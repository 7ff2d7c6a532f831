import LineScript.Proofs.Statement.Leading
import LineScript.Proofs.Statement.Rendering

/-! # Headers of blocks

The header of a conditional, of an arm or of a function has one keyword at its beginning and one at
its end. At least one blank sets the first keyword off from what stands between the two. The header
of a conditional sets its last keyword off as well; that of an arm or of a function is read in the
same way whether its last keyword is set off or not.
-/

namespace LineScript

namespace Text

theorem Trimmed.eq_nil_of_prefix {a t : Text} (h : Trimmed (a ++ t)) (ha : Blank a) : a = [] := by
  cases a with
  | nil => rfl
  | cons c a => cases (ha c List.mem_cons_self).symm.trans (h.1 c rfl)

theorem Trimmed.eq_nil_of_suffix {b t : Text} (h : Trimmed (t ++ b)) (hb : Blank b) : b = [] := by
  rcases List.eq_nil_or_concat b with rfl | ⟨b, c, rfl⟩
  · rfl
  · have hc := h.2 c (by simp)
    cases (hb c (by simp)).symm.trans hc

theorem trim_eq_iff_of_trimmed {s w x : Text} (h : Trimmed (s ++ w)) :
    trim s = x ↔ Trimmed x ∧ ∃ gap, Blank gap ∧ s = x ++ gap := by
  rw [trim_eq_iff]
  refine and_congr_right fun _ => ⟨?_, ?_⟩
  · rintro ⟨a, b, ha, hb, rfl⟩
    rw [List.append_assoc] at h
    rw [h.eq_nil_of_prefix ha]
    exact ⟨b, hb, rfl⟩
  · rintro ⟨b, hb, rfl⟩
    exact ⟨[], b, by simp [Blank], hb, rfl⟩

theorem endsBlank_append {x gap : Text} (hx : Trimmed x) (hg : Blank gap) :
    endsBlank (x ++ gap) = true ↔ gap ≠ [] := by
  unfold endsBlank
  rcases List.eq_nil_or_concat gap with rfl | ⟨gap, c, rfl⟩
  · cases hl : x.getLast? with
    | none => simp [hl]
    | some c => simp [hl, hx.2 c hl]
  · have hc := hg c (by simp)
    simp [← List.append_assoc, hc]

theorem ne_append_of_dropSuffix? {w t : Text} (h : dropSuffix? w t = none) (x gap : Text) :
    t ≠ x ++ (gap ++ w) := by
  rintro rfl
  rw [← List.append_assoc, dropSuffix?_append] at h
  cases h

end Text

open Text

namespace Keyword

/--
The text begins with one word and ends with another; between the two stand at least one blank, then
`inner`, then the blanks `gap`, if any.
-/
def Frames (k k' : Keyword) (inner gap t : Text) : Prop :=
  ∃ lead, (Blank lead ∧ lead ≠ []) ∧ Blank gap ∧
    t = k.spelling ++ (lead ++ (inner ++ (gap ++ k'.spelling)))

/-- What follows the first word of a framed text, trimmed, is the rest of the frame. -/
theorem frames_iff {k k' : Keyword} (hk : k ≠ print) {x gap t : Text} (ht : Trimmed t)
    (hx : Trimmed x) (hne : x ≠ []) :
    k.Frames k' x gap t ↔ Blank gap ∧
      ∃ r, t = k.spelling ++ r ∧ k.isSetOff r = true ∧ trim r = x ++ (gap ++ k'.spelling) := by
  constructor
  · rintro ⟨lead, ⟨hl, hln⟩, hg, rfl⟩
    refine ⟨hg, _, rfl, isSetOff_iff.mpr ?_, trim_eq_iff.mpr ⟨?_, lead, [], hl, ?_, ?_⟩⟩
    · rw [List.head?_append_of_ne_nil lead hln]
      exact fun c hc => .inl (hl c (List.mem_of_mem_head? hc))
    · exact trimmed_append hx k'.trimmed_spelling hne (spelling_ne_nil k') gap
    · simp [Blank]
    · simp
  · rintro ⟨hg, r, rfl, hr, hrt⟩
    obtain ⟨-, a, b, ha, hb, rfl⟩ := trim_eq_iff.mp hrt
    refine ⟨a, ⟨ha, ?_⟩, hg, ?_⟩
    · rintro rfl
      obtain ⟨c, x, rfl⟩ := List.exists_cons_of_ne_nil hne
      rcases isSetOff_iff.mp hr c rfl with hc | ⟨rfl, -⟩
      · cases hc.symm.trans (hx.1 c rfl)
      · exact hk rfl
    · have hb : b = [] := by
        refine Trimmed.eq_nil_of_suffix (t := k.spelling ++ (a ++ (x ++ (gap ++ k'.spelling))))
          ?_ hb
        simpa using ht
      simp [hb]

theorem Frames.endsBlank {k k' : Keyword} {x gap t : Text} (h : k.Frames k' x gap t)
    (hne : gap ≠ []) : (dropSuffix? k'.spelling t).any Text.endsBlank = true := by
  obtain ⟨lead, -, hg, rfl⟩ := h
  have hd : dropSuffix? k'.spelling (k.spelling ++ (lead ++ (x ++ (gap ++ k'.spelling)))) =
      some (k.spelling ++ (lead ++ x) ++ gap) := dropSuffix?_eq_some_iff.mpr (by simp)
  have hl : ∀ c ∈ gap.getLast?, isBlank c = true := fun c hc => hg c (List.mem_of_mem_getLast? hc)
  rw [hd, Option.any_some, Text.endsBlank, List.getLast?_append_of_ne_nil _ hne,
    List.getLast?_eq_getLast_of_ne_nil hne, Option.any_some]
  exact hl _ (List.getLast?_eq_getLast_of_ne_nil hne)

theorem Frames.not_isAssignment {k k' : Keyword} {x gap t : Text} (h : k.Frames k' x gap t)
    (hk : isName k.spelling = true) (hne : x ≠ []) (hx : x.head? ≠ some '=') :
    ¬ t.IsAssignment := by
  obtain ⟨lead, ⟨hl, hln⟩, -, rfl⟩ := h
  obtain ⟨b, lead, rfl⟩ := List.exists_cons_of_ne_nil hln
  obtain ⟨hb, hl⟩ := List.forall_mem_cons.mp hl
  rintro ⟨n, v, hn, he⟩
  have hbn : isNameChar b = false := by
    rw [Bool.eq_false_iff]
    exact fun h => nomatch hb.symm.trans (isBlank_of_isNameChar h)
  have hrest := congrArg (List.dropWhile isNameChar) he
  rw [List.cons_append, (takeWhile_of_isName hk hbn _).2,
    (takeWhile_of_isName hn (c := ' ') (by decide) _).2, List.cons.injEq] at hrest
  cases lead with
  | nil =>
    obtain ⟨c, x, rfl⟩ := List.exists_cons_of_ne_nil hne
    exact hx (congrArg some (List.cons.inj hrest.2).1)
  | cons c lead =>
    exact ne_of_isBlank (hl c List.mem_cons_self) (by decide) (List.cons.inj hrest.2).1

end Keyword

namespace Statement

section Trimmed

variable {t : Text} (ht : Trimmed t)

include ht

theorem readDefine_eq_ok_iff {n : Text} :
    readDefine t = .ok (.define n) ↔
      isName n = true ∧ ∃ gap, Blank gap ∧ t = n ++ (gap ++ Keyword.asFunction.spelling) := by
  unfold readDefine
  cases hd : dropSuffix? Keyword.asFunction.spelling t with
  | none =>
    simp only [reduceCtorEq, false_iff]
    rintro ⟨-, gap, -, h⟩
    exact ne_append_of_dropSuffix? hd n gap h
  | some s =>
    obtain rfl := dropSuffix?_eq_some_iff.mp hd
    have hs := trim_eq_iff_of_trimmed ht (x := n)
    simp only [← List.append_assoc, List.append_cancel_right_eq]
    constructor
    · intro h
      split at h
      · next hn =>
        cases h
        exact ⟨hn, (hs.mp rfl).2⟩
      · cases h
    · rintro ⟨hn, hg⟩
      rw [hs.mpr ⟨trimmed_of_isName hn, hg⟩, if_pos hn]

theorem readWhen_eq_ok_iff {l : Text} :
    readWhen t = .ok (.when l) ↔
      ∃ gap, Blank gap ∧ t = inQuotes l ++ (gap ++ Keyword.then_.spelling) := by
  unfold readWhen
  cases hd : dropSuffix? Keyword.then_.spelling t with
  | none =>
    simp only [reduceCtorEq, false_iff]
    rintro ⟨gap, -, h⟩
    exact ne_append_of_dropSuffix? hd (inQuotes l) gap h
  | some s =>
    obtain rfl := dropSuffix?_eq_some_iff.mp hd
    have hs := trim_eq_iff_of_trimmed ht (x := inQuotes l)
    simp only [← List.append_assoc, List.append_cancel_right_eq]
    rw [and_iff_right (trimmed_inQuotes l)] at hs
    rw [← hs]
    have hq : unquote? (trim s) = some l ↔ trim s = inQuotes l := unquote?_eq_some_iff
    rw [← hq]
    cases unquote? (trim s) <;> simp

theorem readIf_eq_ok_iff {c : Condition} :
    readIf t = .ok (.ifThen c) ↔
      ∃ s gap, (Trimmed s ∧ s ≠ []) ∧ (Blank gap ∧ gap ≠ []) ∧
        t = s ++ (gap ++ Keyword.then_.spelling) ∧ c = .ofText s := by
  unfold readIf
  cases hd : dropSuffix? Keyword.then_.spelling t with
  | none =>
    simp only [Option.filter_none, reduceCtorEq, false_iff]
    rintro ⟨s, gap, -, -, h, -⟩
    exact ne_append_of_dropSuffix? hd s gap h
  | some s =>
    obtain rfl := dropSuffix?_eq_some_iff.mp hd
    simp only [← List.append_assoc, List.append_cancel_right_eq]
    constructor
    · intro h
      split at h
      · cases h
      · next hf =>
        obtain ⟨he, hb⟩ := Option.filter_eq_some_iff.mp hf
        cases he
        split at h
        · cases h
        · next hne =>
          cases h
          obtain ⟨hx, gap, hg, hs⟩ := (trim_eq_iff_of_trimmed ht).mp rfl
          rw [hs, endsBlank_append hx hg] at hb
          exact ⟨_, gap, ⟨hx, by simpa using hne⟩, ⟨hg, hb⟩, hs, rfl⟩
    · rintro ⟨x, gap, ⟨hx, hne⟩, ⟨hg, hgn⟩, rfl, rfl⟩
      have htrim : trim (x ++ gap) = x := (trim_eq_iff_of_trimmed ht).mpr ⟨hx, gap, hg, rfl⟩
      rw [Option.filter_some_pos ((endsBlank_append hx hg).mpr hgn)]
      dsimp only
      rw [htrim, if_neg (by simpa using hne)]

theorem read_eq_define_iff {n : Text} :
    read t = .ok (.define n) ↔
      isName n = true ∧ ∃ gap, Keyword.define.Frames .asFunction n gap t := by
  have hframes (hn : isName n = true) (gap : Text) :
      Keyword.define.Frames .asFunction n gap t ↔ _ :=
    Keyword.frames_iff (by decide) ht (trimmed_of_isName hn) (isName_iff.mp hn).1
  rw [read_eq_ok_iff (k := .define) (by decide) (.define n)]
  constructor
  · rintro ⟨-, r, hr, ho, h⟩
    obtain ⟨hn, gap, hg, htrim⟩ := (readDefine_eq_ok_iff (trimmed_trim r)).mp h
    exact ⟨hn, gap, (hframes hn gap).mpr ⟨hg, r, hr, ho, htrim⟩⟩
  · rintro ⟨hn, gap, h⟩
    obtain ⟨hg, r, hr, ho, htrim⟩ := (hframes hn gap).mp h
    refine ⟨h.not_isAssignment (by decide) (isName_iff.mp hn).1 ?_, r, hr, ho,
      (readDefine_eq_ok_iff (trimmed_trim r)).mpr ⟨hn, gap, hg, htrim⟩⟩
    intro hc
    cases (isName_iff.mp hn).2 _ (List.mem_of_mem_head? hc)

theorem read_eq_when_iff {l : Text} :
    read t = .ok (.when l) ↔
      ¬ t.IsAssignment ∧ ∃ gap, Keyword.when.Frames .then_ (inQuotes l) gap t := by
  have hframes (gap : Text) : Keyword.when.Frames .then_ (inQuotes l) gap t ↔ _ :=
    Keyword.frames_iff (by decide) ht (trimmed_inQuotes l) (List.cons_ne_nil _ _)
  rw [read_eq_ok_iff (k := .when) (by decide) (.when l)]
  refine and_congr_right fun _ => ⟨?_, ?_⟩
  · rintro ⟨r, hr, ho, h⟩
    obtain ⟨gap, hg, htrim⟩ := (readWhen_eq_ok_iff (trimmed_trim r)).mp h
    exact ⟨gap, (hframes gap).mpr ⟨hg, r, hr, ho, htrim⟩⟩
  · rintro ⟨gap, h⟩
    obtain ⟨hg, r, hr, ho, htrim⟩ := (hframes gap).mp h
    exact ⟨r, hr, ho, (readWhen_eq_ok_iff (trimmed_trim r)).mpr ⟨gap, hg, htrim⟩⟩

theorem read_eq_ifThen_iff {c : Condition} :
    read t = .ok (.ifThen c) ↔
      ¬ t.IsAssignment ∧ ∃ s gap, (Trimmed s ∧ s ≠ []) ∧ gap ≠ [] ∧
        Keyword.if_.Frames .then_ s gap t ∧ c = .ofText s := by
  rw [read_eq_ok_iff (k := .if_) (by decide) (.ifThen c)]
  refine and_congr_right fun _ => ⟨?_, ?_⟩
  · rintro ⟨r, hr, ho, h⟩
    obtain ⟨s, gap, ⟨hs, hne⟩, ⟨hg, hgn⟩, htrim, hc⟩ := (readIf_eq_ok_iff (trimmed_trim r)).mp h
    have hf := (Keyword.frames_iff (by decide) ht hs hne).mpr ⟨hg, r, hr, ho, htrim⟩
    exact ⟨s, gap, ⟨hs, hne⟩, hgn, hf, hc⟩
  · rintro ⟨s, gap, ⟨hs, hne⟩, hgn, hf, hc⟩
    obtain ⟨hg, r, hr, ho, htrim⟩ := (Keyword.frames_iff (by decide) ht hs hne).mp hf
    exact ⟨r, hr, ho, (readIf_eq_ok_iff (trimmed_trim r)).mpr
      ⟨s, gap, ⟨hs, hne⟩, ⟨hg, hgn⟩, htrim, hc⟩⟩

end Trimmed

/--
A trimmed line is the header of a function exactly if it has `DEFINE`, a name and `AS FUNCTION`, and
that of an arm exactly if it has `WHEN`, a text in quotes and `THEN`, with at least one blank after
the first word; there may be blanks before the last words, but there need not be any. The header of
a conditional needs at least one blank there.
-/
theorem headers_framed {t : Text} (ht : Trimmed t) :
    (∀ n, read t = .ok (.define n) ↔
      isName n = true ∧ ∃ gap, Keyword.define.Frames .asFunction n gap t) ∧
    (∀ l, read t = .ok (.when l) ↔
      ¬ t.IsAssignment ∧ ∃ gap, Keyword.when.Frames .then_ (inQuotes l) gap t) ∧
    (∀ c, read t = .ok (.ifThen c) ↔
      ¬ t.IsAssignment ∧ ∃ s gap, (Trimmed s ∧ s ≠ []) ∧ gap ≠ [] ∧
        Keyword.if_.Frames .then_ s gap t ∧ c = .ofText s) :=
  ⟨fun _ => read_eq_define_iff ht, fun _ => read_eq_when_iff ht, fun _ => read_eq_ifThen_iff ht⟩

/-- A tab and a space before the last words of a header are as good as nothing. -/
theorem headers_framed_of_gaps :
    (Trimmed "DEFINE f\t AS FUNCTION".toList ∧
      read "DEFINE f\t AS FUNCTION".toList = .ok (.define ['f'])) ∧
    Trimmed "WHEN \"a THEN\"THEN".toList ∧
      read "WHEN \"a THEN\"THEN".toList = .ok (.when "a THEN".toList) := by
  have trimmed {u : Text} (h : trim u = u) : Trimmed u := h ▸ trimmed_trim u
  have hd : Trimmed "DEFINE f\t AS FUNCTION".toList := trimmed (by decide +kernel)
  have hw : Trimmed "WHEN \"a THEN\"THEN".toList := trimmed (by decide +kernel)
  have hlead : Blank [' '] ∧ [' '] ≠ [] := by simp [Blank, isBlank]
  refine ⟨⟨hd, ((headers_framed hd).1 _).mpr ⟨by decide, ['\t', ' '], [' '], hlead, ?_, ?_⟩⟩,
    hw, ((headers_framed hw).2.1 _).mpr ⟨?_, [], [' '], hlead, ?_, ?_⟩⟩
  · simp [Blank, isBlank]
  · decide +kernel
  · exact assignment?_eq_none_iff.mp (by decide +kernel)
  · simp [Blank]
  · decide +kernel

/--
The last words of a header can run into what stands before them, where a blank should set them off;
in the header of a conditional they cannot.
-/
theorem headers_run_together :
    (read "DEFINE fAS FUNCTION".toList = .ok (.define ['f']) ∧
      ¬ ∃ gap, gap ≠ [] ∧
        Keyword.define.Frames .asFunction ['f'] gap "DEFINE fAS FUNCTION".toList) ∧
    (read "WHEN \"x\"THEN".toList = .ok (.when ['x']) ∧
      ¬ ∃ gap, gap ≠ [] ∧
        Keyword.when.Frames .then_ (inQuotes ['x']) gap "WHEN \"x\"THEN".toList) ∧
    read "IF x = 1THEN".toList = .error .noThen := by
  refine ⟨⟨by decide +kernel, ?_⟩, ⟨by decide +kernel, ?_⟩, by decide +kernel⟩
  · rintro ⟨gap, hne, h⟩
    exact absurd (h.endsBlank hne) (by decide +kernel)
  · rintro ⟨gap, hne, h⟩
    exact absurd (h.endsBlank hne) (by decide +kernel)

end Statement

end LineScript
