import LineScript.Proofs.Spelling
import LineScript.Proofs.Value.Rounding

/-! # Numerals and what can be read of them

A token is a number exactly if it spells a numeral: an optional sign, and digits with an optional
point, at least one digit before the point or, if there is none, at least one after it. A number can
be read exactly if at most fifteen digits stand before its point, leading zeros not counted; what it
is read as is then finite, and correctly rounded.
-/

namespace LineScript

open Text

namespace Text

def Digits (t : Text) : Prop := ∀ c ∈ t, c.isDigit = true

theorem digits_iff {t : Text} : Digits t ↔ t.all Char.isDigit = true := List.all_eq_true.symm

theorem ne_of_isDigit {c d : Char} (h : c.isDigit = true) (hd : d.isDigit = false) : c ≠ d := by
  rintro rfl
  cases h.symm.trans hd

/-- At least two characters, and the first and the last of them are quotes. -/
def IsQuoted (t : Text) : Prop := 2 ≤ t.length ∧ t.head? = some '"' ∧ t.getLast? = some '"'

theorem isQuoted_iff {t : Text} : IsQuoted t ↔ ∃ u, t = inQuotes u := by
  constructor
  · rintro ⟨hlen, hfirst, hlast⟩
    obtain ⟨c, t, rfl⟩ := List.exists_cons_of_length_pos (Nat.lt_of_lt_of_le Nat.zero_lt_two hlen)
    cases hfirst
    rcases List.eq_nil_or_concat t with rfl | ⟨u, c, rfl⟩
    · simp at hlen
    · obtain rfl : c = '"' := by simpa [List.getLast?_cons] using hlast
      exact ⟨u, by simp [inQuotes]⟩
  · rintro ⟨u, rfl⟩
    refine ⟨by simp [inQuotes], rfl, ?_⟩
    simp [inQuotes, List.getLast?_cons]

@[simp] theorem dropLast_tail_inQuotes (u : Text) : (inQuotes u).tail.dropLast = u := by
  simp [inQuotes]

theorem toNat_sub_le_of_isDigit {c : Char} (h : c.isDigit = true) : c.toNat - '0'.toNat ≤ 9 := by
  have hle : c.toNat ≤ '0'.toNat + 9 := (Char.isDigit_iff_toNat.mp h).2
  omega

end Text

namespace Numeral

/-- The text spells a magnitude with these digits before the point and after it. -/
inductive Magnitude : (t whole fraction : Text) → Prop where
  | whole {w : Text} : w ≠ [] → Digits w → Magnitude w w []
  | pointed {w f : Text} : w ≠ [] → Digits w → Digits f → Magnitude (w ++ '.' :: f) w f
  | fraction {f : Text} : f ≠ [] → Digits f → Magnitude ('.' :: f) [] f

/-- The text spells the numeral: one sign may stand before the magnitude. -/
inductive Spells : Text → Numeral → Prop where
  | unsigned {t w f : Text} : Magnitude t w f → Spells t ⟨false, w, f⟩
  | plus {t w f : Text} : Magnitude t w f → Spells ('+' :: t) ⟨false, w, f⟩
  | minus {t w f : Text} : Magnitude t w f → Spells ('-' :: t) ⟨true, w, f⟩

namespace Magnitude

variable {t w f : Text}

theorem digits (h : Magnitude t w f) : Digits w ∧ Digits f := by
  have hnil : Digits [] := by simp [Digits]
  cases h with
  | whole _ hw => exact ⟨hw, hnil⟩
  | pointed _ hw hf => exact ⟨hw, hf⟩
  | fraction _ hf => exact ⟨hnil, hf⟩

theorem ne_nil (h : Magnitude t w f) : w ≠ [] ∨ f ≠ [] := by
  cases h with
  | whole hw => exact .inl hw
  | pointed hw => exact .inl hw
  | fraction hf => exact .inr hf

theorem takeWhile_eq (h : Magnitude t w f) :
    t.takeWhile (· != '.') = w ∧ (t.dropWhile (· != '.')).drop 1 = f := by
  have hpass : ∀ c ∈ w, (c != '.') = true := by
    intro c hc
    simpa using ne_of_isDigit (d := '.') (h.digits.1 c hc) (by decide)
  cases h with
  | whole =>
    rw [← List.append_nil t, List.takeWhile_append_of_pos hpass,
      List.dropWhile_append_of_pos hpass]
    simp
  | pointed =>
    rw [List.takeWhile_append_of_pos hpass, List.dropWhile_append_of_pos hpass]
    simp
  | fraction => simp

theorem of_takeWhile (hw : Digits (t.takeWhile (· != '.')))
    (hf : Digits ((t.dropWhile (· != '.')).drop 1))
    (hne : ¬ (t.takeWhile (· != '.') = [] ∧ (t.dropWhile (· != '.')).drop 1 = [])) :
    Magnitude t (t.takeWhile (· != '.')) ((t.dropWhile (· != '.')).drop 1) := by
  have ht : t = t.takeWhile (· != '.') ++ t.dropWhile (· != '.') :=
    List.takeWhile_append_dropWhile.symm
  have hpoint := List.head?_dropWhile_not (· != '.') t
  generalize t.takeWhile (· != '.') = w at *
  cases hd : t.dropWhile (· != '.') with
  | nil =>
    rw [hd, List.append_nil] at ht
    subst ht
    exact .whole (fun h => hne ⟨h, by rw [hd]; rfl⟩) hw
  | cons c f =>
    rw [hd] at ht hpoint hf hne
    obtain rfl : c = '.' := by simpa using hpoint
    subst ht
    cases w with
    | nil => exact .fraction (fun h => hne ⟨rfl, h⟩) hf
    | cons => exact .pointed (List.cons_ne_nil _ _) hw hf

theorem takeSign_eq (h : Magnitude t w f) : takeSign t = (false, t) := by
  have hd (c : Char) (r : Text) (hc : c.isDigit = true) : takeSign (c :: r) = (false, c :: r) := by
    unfold takeSign
    split
    · next he => exact absurd (List.cons.inj he).1 (ne_of_isDigit hc (by decide))
    · next he => exact absurd (List.cons.inj he).1 (ne_of_isDigit hc (by decide))
    · rfl
  cases h with
  | whole hne hw =>
    obtain ⟨c, w, rfl⟩ := List.exists_cons_of_ne_nil hne
    exact hd c w (hw c List.mem_cons_self)
  | pointed hne hw =>
    obtain ⟨c, w, rfl⟩ := List.exists_cons_of_ne_nil hne
    exact hd c _ (hw c List.mem_cons_self)
  | fraction => rfl

end Magnitude

theorem ofText?_eq_some_iff_magnitude {t : Text} {n : Numeral} :
    ofText? t = some n ↔
      n.negative = (takeSign t).1 ∧ Magnitude (takeSign t).2 n.whole n.fraction := by
  obtain ⟨negative, w, f⟩ := n
  unfold ofText?
  generalize takeSign t = s
  obtain ⟨b, u⟩ := s
  dsimp only
  constructor
  · intro h
    split at h
    · next hc =>
      simp only [Bool.and_eq_true, ← digits_iff, Bool.not_eq_true', Bool.and_eq_false_iff,
        List.isEmpty_eq_false_iff] at hc
      cases h
      exact ⟨rfl, .of_takeWhile hc.1.1 hc.1.2 (by tauto)⟩
    · cases h
  · rintro ⟨rfl, h⟩
    obtain ⟨hw, hf⟩ := h.takeWhile_eq
    rw [hw, hf, if_pos]
    simp only [Bool.and_eq_true, ← digits_iff, Bool.not_eq_true', Bool.and_eq_false_iff,
      List.isEmpty_eq_false_iff]
    exact ⟨h.digits, h.ne_nil⟩

/-- A numeral is read from the texts that spell it, and from no others. -/
theorem ofText?_eq_some_iff {t : Text} {n : Numeral} : ofText? t = some n ↔ Spells t n := by
  rw [ofText?_eq_some_iff_magnitude]
  obtain ⟨negative, w, f⟩ := n
  constructor
  · rintro ⟨hn, h⟩
    dsimp only at hn h
    subst hn
    unfold takeSign at h ⊢
    split at h
    · exact .minus h
    · exact .plus h
    · exact .unsigned h
  · intro h
    cases h with
    | unsigned h =>
      rw [h.takeSign_eq]
      exact ⟨rfl, h⟩
    | plus h => exact ⟨rfl, h⟩
    | minus h => exact ⟨rfl, h⟩

/-! ### The digits before the point -/

/-- The number of digits before the point, leading zeros not counted. -/
def wholeLength (n : Numeral) : Nat := (n.whole.dropWhile (· == '0')).length

theorem Spells.digits {t : Text} {n : Numeral} (h : Spells t n) :
    Digits n.whole ∧ Digits n.fraction := by
  cases h with
  | unsigned h => exact h.digits
  | plus h => exact h.digits
  | minus h => exact h.digits

theorem dropWhile_of_digits {w : Text} (h : Digits w) :
    w.dropWhile (fun c => c == '-' || c == '+' || c == '0') = w.dropWhile (· == '0') := by
  induction w with
  | nil => rfl
  | cons c w ih =>
    obtain ⟨hc, hw⟩ := List.forall_mem_cons.mp h
    have hminus : (c == '-') = false := by simpa using ne_of_isDigit hc (by decide)
    have hplus : (c == '+') = false := by simpa using ne_of_isDigit hc (by decide)
    simp only [List.dropWhile_cons, hminus, hplus, Bool.false_or, ih hw]

theorem Spells.wholeDigits_eq {t : Text} {n : Numeral} (h : Spells t n) :
    Value.wholeDigits t = n.whole.dropWhile (· == '0') := by
  rw [← dropWhile_of_digits h.digits.1]
  cases h with
  | unsigned h => rw [Value.wholeDigits, h.takeWhile_eq.1]
  | plus h => simp [Value.wholeDigits, h.takeWhile_eq.1]
  | minus h => simp [Value.wholeDigits, h.takeWhile_eq.1]

/-! ### The magnitude -/

theorem valueOfDigits_append (a b : Text) :
    valueOfDigits (a ++ b) = valueOfDigits a * 10 ^ b.length + valueOfDigits b := by
  have hfold (k : Nat) (b : Text) :
      b.foldl (fun n c => 10 * n + (c.toNat - '0'.toNat)) k =
        k * 10 ^ b.length + valueOfDigits b := by
    induction b generalizing k with
    | nil => simp [valueOfDigits]
    | cons c b ih =>
      have hcons : valueOfDigits (c :: b) =
          (10 * 0 + (c.toNat - '0'.toNat)) * 10 ^ b.length + valueOfDigits b := ih _
      rw [List.foldl_cons, ih, hcons, List.length_cons, pow_succ]
      ring
  rw [valueOfDigits, List.foldl_append]
  exact hfold _ b

theorem valueOfDigits_cons (c : Char) (t : Text) :
    valueOfDigits (c :: t) = (c.toNat - '0'.toNat) * 10 ^ t.length + valueOfDigits t := by
  have := valueOfDigits_append [c] t
  simpa [valueOfDigits] using this

theorem valueOfDigits_lt {t : Text} (h : Digits t) : valueOfDigits t < 10 ^ t.length := by
  induction t with
  | nil => simp [valueOfDigits]
  | cons c t ih =>
    obtain ⟨hc, ht⟩ := List.forall_mem_cons.mp h
    have hlt := ih ht
    have hdigit := toNat_sub_le_of_isDigit hc
    rw [valueOfDigits_cons, List.length_cons, pow_succ]
    nlinarith

theorem valueOfDigits_dropWhile (t : Text) :
    valueOfDigits (t.dropWhile (· == '0')) = valueOfDigits t := by
  induction t with
  | nil => rfl
  | cons c t ih =>
    by_cases hc : c = '0'
    · subst hc
      rw [List.dropWhile_cons_of_pos rfl, ih, valueOfDigits_cons]
      simp
    · rw [List.dropWhile_cons_of_neg (by simpa using hc)]

theorem Spells.valueOfDigits_whole_lt {t : Text} {n : Numeral} (h : Spells t n) :
    valueOfDigits n.whole < 10 ^ n.wholeLength := by
  rw [← valueOfDigits_dropWhile]
  refine valueOfDigits_lt fun c hc => h.digits.1 c ?_
  exact (List.dropWhile_sublist _).subset hc

theorem Spells.numerator_lt {t : Text} {n : Numeral} (h : Spells t n) :
    n.numerator < 10 ^ n.wholeLength * n.denominator := by
  have hw := h.valueOfDigits_whole_lt
  have hf : valueOfDigits n.fraction < n.denominator := valueOfDigits_lt h.digits.2
  change valueOfDigits (n.whole ++ n.fraction) < _
  rw [valueOfDigits_append]
  change valueOfDigits n.whole * n.denominator + valueOfDigits n.fraction < _
  nlinarith

end Numeral

namespace Value

variable {t : Text} {n : Numeral}

theorem number?_of_spells (h : Numeral.Spells t n) :
    (number t).number? = if n.wholeLength ≤ maxWholeLength then
      Binary64.ofRatio? n.negative n.numerator n.denominator else none := by
  rw [number?, Numeral.ofText?_eq_some_iff.mpr h, Option.bind_some, h.wholeDigits_eq]
  rfl

theorem exists_number? (h : Numeral.Spells t n) (hshort : n.wholeLength ≤ maxWholeLength) :
    ∃ x, (number t).number? = some x ∧ x.negative = n.negative ∧
      Binary64.RoundsTo (n.numerator / n.denominator * Binary64.pow2 1074) x.units := by
  have hbound : n.numerator ≤ 2 ^ 53 * n.denominator := by
    have hpow : 10 ^ n.wholeLength ≤ 2 ^ 53 :=
      (Nat.pow_le_pow_right (by decide) hshort).trans (by decide)
    exact h.numerator_lt.le.trans (Nat.mul_le_mul_right _ hpow)
  rw [number?_of_spells h, if_pos hshort]
  exact Binary64.exists_ofRatio? n.negative n.denominator_pos hbound

/-- Whether a number can be read is decided by its length alone. -/
theorem number?_eq_none_iff (h : Numeral.Spells t n) :
    (number t).number? = none ↔ maxWholeLength < n.wholeLength := by
  constructor
  · intro hnone
    by_contra hlong
    obtain ⟨x, hx, -⟩ := exists_number? h (Nat.not_lt.mp hlong)
    cases hnone.symm.trans hx
  · intro hlong
    rw [number?_of_spells h, if_neg (Nat.not_le.mpr hlong)]

/-! ### Tokens -/

theorem read_of_isQuoted {token : Text} (h : (trim token).IsQuoted) :
    read token = .string (trim token).tail.dropLast := by
  obtain ⟨u, hu⟩ := isQuoted_iff.mp h
  unfold read
  dsimp only
  rw [hu, unquote?_inQuotes, dropLast_tail_inQuotes]

theorem read_of_not_isQuoted {token : Text} (h : ¬ (trim token).IsQuoted) :
    read token =
      if (Numeral.ofText? (trim token)).isSome then .number (trim token)
      else .string (trim token) := by
  have hq : unquote? (trim token) = none := by
    rw [Option.eq_none_iff_forall_ne_some]
    exact fun u hu => h (isQuoted_iff.mpr ⟨u, unquote?_eq_some_iff.mp hu⟩)
  unfold read
  dsimp only
  rw [hq]

theorem read_eq_number_iff {token u : Text} :
    read token = .number u ↔ u = trim token ∧ ∃ n, Numeral.Spells (trim token) n := by
  simp only [← Numeral.ofText?_eq_some_iff, ← Option.isSome_iff_exists]
  by_cases hq : (trim token).IsQuoted
  · rw [read_of_isQuoted hq]
    obtain ⟨v, hv⟩ := isQuoted_iff.mp hq
    simp only [reduceCtorEq, false_iff, not_and]
    intro _ hsome
    rw [hv, Numeral.ofText?, inQuotes] at hsome
    simp [Numeral.takeSign] at hsome
  · rw [read_of_not_isQuoted hq]
    split
    · next h => simp [h, eq_comm]
    · next h => simp [h]

/--
A token is a number, with the trimmed token for its spelling, exactly if that spells a numeral; if
it stands in quotes, it is the string between them, and in every other case it is a string as it
stands. A number cannot be read exactly if it has more than fifteen digits before its point, leading
zeros not counted.
-/
theorem tokens_classified (token : Text) :
    (∀ u, read token = .number u ↔ u = trim token ∧ ∃ n, Numeral.Spells (trim token) n) ∧
    ((trim token).IsQuoted → read token = .string (trim token).tail.dropLast) ∧
    (¬ (trim token).IsQuoted → (∀ n, ¬ Numeral.Spells (trim token) n) →
      read token = .string (trim token)) ∧
    ∀ u n, Numeral.Spells u n → ((Value.number u).number? = none ↔ 15 < n.wholeLength) := by
  refine ⟨fun u => read_eq_number_iff, read_of_isQuoted, fun hq hn => ?_,
    fun u n h => number?_eq_none_iff h⟩
  have hnone : Numeral.ofText? (trim token) = none := by
    rw [Option.eq_none_iff_forall_ne_some]
    exact fun n h => hn n (Numeral.ofText?_eq_some_iff.mp h)
  rw [read_of_not_isQuoted hq, hnone]
  rfl

/--
Fifteen digits after a zero can be read, and sixteen cannot; a second sign, and a quote at one end
only, leave a string.
-/
theorem tokens_classified_at_fifteen_digits :
    (read " -0123456789012345.50 ".toList = .number "-0123456789012345.50".toList ∧
      (number "-0123456789012345.50".toList).number? ≠ none) ∧
    (number "+1000000000000000".toList).number? = none ∧
    read "\"+-5\"".toList = .string "+-5".toList ∧
    read "+-5\"".toList = .string "+-5\"".toList := by
  have spells {t : Text} {n : Numeral} (h : Numeral.ofText? t = some n) : Numeral.Spells t n :=
    Numeral.ofText?_eq_some_iff.mp h
  refine ⟨⟨?_, ?_⟩, ?_, ?_, ?_⟩
  · have htrim : trim " -0123456789012345.50 ".toList = "-0123456789012345.50".toList := by
      decide +kernel
    exact ((tokens_classified _).1 _).mpr ⟨htrim.symm,
      ⟨true, "0123456789012345".toList, "50".toList⟩, spells (by decide +kernel)⟩
  · have hs : Numeral.Spells "-0123456789012345.50".toList
        ⟨true, "0123456789012345".toList, "50".toList⟩ := spells (by decide +kernel)
    exact ((tokens_classified []).2.2.2 _ _ hs).not.mpr (by decide +kernel)
  · have hs : Numeral.Spells "+1000000000000000".toList
        ⟨false, "1000000000000000".toList, []⟩ := spells (by decide +kernel)
    exact ((tokens_classified []).2.2.2 _ _ hs).mpr (by decide +kernel)
  · have htrim : trim "\"+-5\"".toList = inQuotes "+-5".toList := by decide +kernel
    have hr := (tokens_classified "\"+-5\"".toList).2.1 (isQuoted_iff.mpr ⟨_, htrim⟩)
    rwa [htrim, dropLast_tail_inQuotes] at hr
  · have htrim : trim "+-5\"".toList = "+-5\"".toList := by decide +kernel
    have hr := (tokens_classified "+-5\"".toList).2.2.1
    rw [htrim] at hr
    refine hr (fun h => nomatch h.2.1) fun n h => ?_
    have hnone : Numeral.ofText? "+-5\"".toList = none := by decide +kernel
    cases hnone.symm.trans (Numeral.ofText?_eq_some_iff.mpr h)

end Value

end LineScript
