import LineScript.Proofs.Statement.Classes

/-! # The leading word

The words that may begin a line are names, and what sets one off is no character of a name. So the
word that leads a text is all of the name that begins it, no other word can lead it, whichever of
them is tried first, and a line is read as a statement of one word exactly if that word leads it.
-/

namespace LineScript

open Text

namespace Keyword

theorem isName_spelling {k : Keyword} (h : k ∈ leading) : isName k.spelling = true :=
  (show ∀ k ∈ leading, isName k.spelling = true by decide) k h

theorem spelling_injective {k k' : Keyword} (h : k.spelling = k'.spelling) : k = k' := by
  cases k <;> cases k' <;> first | rfl | cases h

theorem isNameChar_of_isSetOff {k : Keyword} {c : Char} {r : Text}
    (h : k.isSetOff (c :: r) = true) : isNameChar c = false := by
  rw [Bool.eq_false_iff]
  intro hc
  rcases isSetOff_iff.mp h c rfl with hb | ⟨-, rfl⟩
  · cases hb.symm.trans (isBlank_of_isNameChar hc)
  · cases hc

theorem takeWhile_of_isSetOff {k : Keyword} {r : Text} (hk : k ∈ leading)
    (hr : k.isSetOff r = true) : (k.spelling ++ r).takeWhile isNameChar = k.spelling := by
  rw [List.takeWhile_append_of_pos (isName_iff.mp (isName_spelling hk)).2]
  cases r with
  | nil => simp
  | cons c r => simp [isNameChar_of_isSetOff hr]

/-- Two words that are set off in one text are one word. -/
theorem eq_of_isSetOff {k k' : Keyword} {r r' : Text} (hk : k ∈ leading) (hk' : k' ∈ leading)
    (hr : k.isSetOff r = true) (hr' : k'.isSetOff r' = true)
    (h : k.spelling ++ r = k'.spelling ++ r') : k = k' := by
  apply spelling_injective
  rw [← takeWhile_of_isSetOff hk hr, h, takeWhile_of_isSetOff hk' hr']

theorem Leads.unique {k k' : Keyword} {t : Text} (hk : k ∈ leading) (hk' : k' ∈ leading)
    (h : k.Leads t) (h' : k'.Leads t) : k = k' := by
  obtain ⟨r, rfl, hr⟩ := h
  obtain ⟨r', ht, hr'⟩ := h'
  exact eq_of_isSetOff hk hk' (isSetOff_iff.mpr hr) (isSetOff_iff.mpr hr') ht

theorem firstAmong?_eq_some_iff {words : List Keyword} (hw : ∀ k ∈ words, k ∈ leading)
    {k : Keyword} {t r : Text} :
    firstAmong? words t = some (k, r) ↔
      k ∈ words ∧ t = k.spelling ++ r ∧ k.isSetOff r = true := by
  refine ⟨of_firstAmong?_eq_some, ?_⟩
  rintro ⟨hm, ht, hr⟩
  cases h : firstAmong? words t with
  | none => exact absurd ⟨r, ht, isSetOff_iff.mp hr⟩ (firstAmong?_eq_none_iff.mp h k hm)
  | some w =>
    obtain ⟨k', r'⟩ := w
    obtain ⟨hm', ht', hr'⟩ := of_firstAmong?_eq_some h
    obtain rfl := eq_of_isSetOff (hw k' hm') (hw k hm) hr' hr (ht'.symm.trans ht)
    rw [List.append_cancel_left (ht'.symm.trans ht)]

theorem leading?_eq_some_iff {k : Keyword} {t r : Text} :
    leading? t = some (k, r) ↔ k ∈ leading ∧ t = k.spelling ++ r ∧ k.isSetOff r = true := by
  rw [leading?_eq_firstAmong?]
  exact firstAmong?_eq_some_iff fun _ => id

theorem firstAmong?_of_perm {words : List Keyword} (h : words.Perm leading) (t : Text) :
    firstAmong? words t = leading? t := by
  ext ⟨k, r⟩
  rw [leading?_eq_some_iff, firstAmong?_eq_some_iff fun k => h.mem_iff.mp, h.mem_iff]

/--
The word that leads a text is unambiguous. At most one of the words that may begin a line begins the
text and is set off in it, that word and the text after it are what is found, and nothing is found
exactly if there is none. So the words can be tried in any order.
-/
theorem leading_unambiguous (t : Text) :
    (∀ k ∈ leading, ∀ k' ∈ leading, k.Leads t → k'.Leads t → k = k') ∧
    (∀ k r, leading? t = some (k, r) ↔ k ∈ leading ∧ k.Leads t ∧ t = k.spelling ++ r) ∧
    (leading? t = none ↔ ∀ k ∈ leading, ¬ k.Leads t) ∧
    ∀ words : List Keyword, words.Perm leading → firstAmong? words t = leading? t := by
  refine ⟨fun k hk k' hk' => Leads.unique hk hk', fun k r => ?_, leading?_eq_none_iff,
    fun words h => firstAmong?_of_perm h t⟩
  rw [leading?_eq_some_iff]
  constructor
  · rintro ⟨hk, ht, hr⟩
    exact ⟨hk, ⟨r, ht, isSetOff_iff.mp hr⟩, ht⟩
  · rintro ⟨hk, ⟨r', ht', hr⟩, ht⟩
    obtain rfl : r' = r := List.append_cancel_left (ht'.symm.trans ht)
    exact ⟨hk, ht, isSetOff_iff.mpr hr⟩

/-- With the words in reverse `IF` is tried first, and a longer word is found all the same. -/
theorem leading_unambiguous_in_reverse :
    leading.reverse.Perm leading ∧
    (define ∈ leading ∧ define.Leads "DEFINE IF".toList ∧
      firstAmong? leading.reverse "DEFINE IF".toList = some (define, " IF".toList) ∧
      ∀ k ∈ leading, k.Leads "DEFINE IF".toList → k = define) ∧
    (print ∈ leading ∧ print.Leads "PRINT(X)".toList ∧
      firstAmong? leading.reverse "PRINT(X)".toList = some (print, "(X)".toList)) ∧
    firstAmong? leading.reverse "ENDIF(X)".toList = none := by
  have hp : leading.reverse.Perm leading := leading.reverse_perm
  have hd : define ∈ leading ∧ define.Leads "DEFINE IF".toList := by
    refine ⟨by decide, " IF".toList, rfl, ?_⟩
    rintro c ⟨⟩
    exact .inl rfl
  have hq : print ∈ leading ∧ print.Leads "PRINT(X)".toList := by
    refine ⟨by decide, "(X)".toList, rfl, ?_⟩
    rintro c ⟨⟩
    exact .inr ⟨rfl, rfl⟩
  have hn : leading? "ENDIF(X)".toList = none := by decide +kernel
  obtain ⟨hunique, hfound, -, horder⟩ := leading_unambiguous "DEFINE IF".toList
  obtain ⟨-, hfound', -, horder'⟩ := leading_unambiguous "PRINT(X)".toList
  obtain ⟨-, -, -, horder''⟩ := leading_unambiguous "ENDIF(X)".toList
  refine ⟨hp, ⟨hd.1, hd.2, ?_, ?_⟩, ⟨hq.1, hq.2, ?_⟩, ?_⟩
  · rw [horder _ hp]
    exact (hfound _ _).mpr ⟨hd.1, hd.2, rfl⟩
  · intro k hk hl
    exact hunique k hk define hd.1 hl hd.2
  · rw [horder' _ hp]
    exact (hfound' _ _).mpr ⟨hq.1, hq.2, rfl⟩
  · rw [horder'' _ hp, hn]

end Keyword

namespace Statement

theorem LedBy.unique {k k' : Keyword} {s : Statement} (h : LedBy k s) (h' : LedBy k' s)
    (hs : s ≠ .unrecognized) : k = k' := by
  cases h <;> cases h' <;> first | rfl | exact absurd rfl hs

theorem read_eq_ok_iff {k : Keyword} (hk : k ∈ Keyword.leading) {s : Statement} (hs : LedBy k s)
    {t : Text} :
    read t = .ok s ↔ ¬ t.IsAssignment ∧
      ∃ r, t = k.spelling ++ r ∧ k.isSetOff r = true ∧ readAfter k (trim r) = .ok s := by
  have hu : s ≠ .unrecognized := by
    rintro rfl
    cases hs <;> revert hk <;> decide
  rw [← assignment?_eq_none_iff]
  constructor
  · intro h
    unfold read at h
    split at h
    · cases h
      cases hs
    · next ha =>
      split at h
      · next hl =>
        obtain rfl := (ledBy_of_readAfter h).unique hs hu
        obtain ⟨-, ht, hr⟩ := Keyword.leading?_eq_some_iff.mp hl
        exact ⟨ha, _, ht, hr, h⟩
      · cases h
        exact absurd rfl hu
  · rintro ⟨ha, r, ht, hr, h⟩
    rw [Spelling.read_of_word ha (Keyword.leading?_eq_some_iff.mpr ⟨hk, ht, hr⟩), h]

end Statement

end LineScript
