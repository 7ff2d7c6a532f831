import LineScript.Text.Basic

/-! # Text as bytes

In UTF-8 a character takes one byte to four. The first byte tells how many, and the more there are
the greater it is; the others are digits, most significant first. So the order of two texts,
character by character, is the order of their bytes.
-/

namespace LineScript.Text

def bytes (t : Text) : List UInt8 := t.flatMap String.utf8EncodeChar

theorem compare_ofNat {a b : Nat} (ha : a < 256) (hb : b < 256) :
    compare (UInt8.ofNat a) (UInt8.ofNat b) = compare a b := by
  have hlt : UInt8.ofNat a < UInt8.ofNat b ↔ a < b := by
    rw [UInt8.lt_iff_toNat_lt, UInt8.toNat_ofNat_of_lt' ha, UInt8.toNat_ofNat_of_lt' hb]
  have heq : UInt8.ofNat a = UInt8.ofNat b ↔ a = b := by
    rw [← UInt8.toNat_inj, UInt8.toNat_ofNat_of_lt' ha, UInt8.toNat_ofNat_of_lt' hb]
  change compareOfLessAndEq _ _ = compareOfLessAndEq _ _
  unfold compareOfLessAndEq
  simp only [hlt, heq]

theorem utf8EncodeChar_cases (c : Char) :
    (c.toNat < 0x80 ∧ String.utf8EncodeChar c = [.ofNat c.toNat]) ∨
    ((0x80 ≤ c.toNat ∧ c.toNat < 0x800) ∧ String.utf8EncodeChar c =
      [.ofNat (0xC0 + c.toNat / 64), .ofNat (0x80 + c.toNat % 64)]) ∨
    ((0x800 ≤ c.toNat ∧ c.toNat < 0x10000) ∧ String.utf8EncodeChar c =
      [.ofNat (0xE0 + c.toNat / 4096), .ofNat (0x80 + c.toNat / 64 % 64),
        .ofNat (0x80 + c.toNat % 64)]) ∨
    ((0x10000 ≤ c.toNat ∧ c.toNat < 0x110000) ∧ String.utf8EncodeChar c =
      [.ofNat (0xF0 + c.toNat / 262144), .ofNat (0x80 + c.toNat / 4096 % 64),
        .ofNat (0x80 + c.toNat / 64 % 64), .ofNat (0x80 + c.toNat % 64)]) := by
  have hmax : c.toNat < 0x110000 := by
    have hvalid : c.toNat < 0xd800 ∨ 0xdfff < c.toNat ∧ c.toNat < 0x110000 := c.valid
    omega
  have hv : c.val.toNat = c.toNat := rfl
  by_cases h1 : c.toNat ≤ 0x7F
  · exact .inl ⟨by omega, if_pos h1⟩
  by_cases h2 : c.toNat ≤ 0x7FF
  · refine .inr (.inl ⟨by omega, ?_⟩)
    rw [String.utf8EncodeChar, hv, if_neg h1, if_pos h2, Nat.mod_eq_of_lt (by omega),
      Nat.add_comm _ 0xC0, Nat.add_comm _ 0x80]
  by_cases h3 : c.toNat ≤ 0xFFFF
  · refine .inr (.inr (.inl ⟨by omega, ?_⟩))
    rw [String.utf8EncodeChar, hv, if_neg h1, if_neg h2, if_pos h3,
      Nat.mod_eq_of_lt (show c.toNat / 4096 < 0x10 by omega), Nat.add_comm _ 0xE0,
      Nat.add_comm _ 0x80, Nat.add_comm _ 0x80]
  · refine .inr (.inr (.inr ⟨by omega, ?_⟩))
    rw [String.utf8EncodeChar, hv, if_neg h1, if_neg h2, if_neg h3,
      Nat.mod_eq_of_lt (show c.toNat / 262144 < 0x08 by omega), Nat.add_comm _ 0xF0,
      Nat.add_comm _ 0x80, Nat.add_comm _ 0x80, Nat.add_comm _ 0x80]

theorem compare_append_of_lt {c d : Char} (h : c.toNat < d.toNat) (r s : List UInt8) :
    compare (String.utf8EncodeChar c ++ r) (String.utf8EncodeChar d ++ s) = .lt := by
  -- if the lengths differ, then the first bytes decide; if not, then the first digit that differs
  rcases utf8EncodeChar_cases c with ⟨hc, ec⟩ | ⟨hc, ec⟩ | ⟨hc, ec⟩ | ⟨hc, ec⟩ <;>
    rcases utf8EncodeChar_cases d with ⟨hd, ed⟩ | ⟨hd, ed⟩ | ⟨hd, ed⟩ | ⟨hd, ed⟩ <;>
    rw [ec, ed] <;>
    simp (disch := omega) only [List.cons_append, List.nil_append, List.compare_cons_cons,
      compare_ofNat, Ordering.then_eq_lt, Nat.compare_eq_lt, Nat.compare_eq_eq] <;>
    omega

theorem compare_char (c d : Char) : compare c d = compare c.toNat d.toNat := by
  have heq : c = d ↔ c.toNat = d.toNat := Char.toNat_inj.symm
  change compareOfLessAndEq _ _ = compareOfLessAndEq _ _
  unfold compareOfLessAndEq
  simp only [heq]
  rfl

theorem compare_append_left (p r s : List UInt8) : compare (p ++ r) (p ++ s) = compare r s := by
  induction p with
  | nil => rfl
  | cons b p ih =>
    have hb : compare b b = .eq := Std.ReflCmp.compare_self
    rw [List.cons_append, List.cons_append, List.compare_cons_cons, hb, ih]
    rfl

theorem compare_append (c d : Char) (r s : List UInt8) :
    compare (String.utf8EncodeChar c ++ r) (String.utf8EncodeChar d ++ s) =
      (compare c d).then (compare r s) := by
  rw [compare_char]
  rcases Nat.lt_trichotomy c.toNat d.toNat with h | h | h
  · rw [compare_append_of_lt h, Nat.compare_eq_lt.mpr h]
    rfl
  · obtain rfl := Char.toNat_inj.mp h
    rw [compare_append_left, Nat.compare_eq_eq.mpr rfl]
    rfl
  · have hgt := congrArg Ordering.swap (compare_append_of_lt h s r)
    rw [← Std.OrientedCmp.eq_swap] at hgt
    rw [hgt, Nat.compare_eq_gt.mpr h]
    rfl

theorem exists_bytes_cons (c : Char) (t : Text) : ∃ b r, bytes (c :: t) = b :: r := by
  obtain ⟨b, r, hr⟩ := List.exists_cons_of_ne_nil (String.utf8EncodeChar_ne_nil (c := c))
  exact ⟨b, r ++ bytes t, by rw [bytes, List.flatMap_cons, hr]; rfl⟩

/-- Texts stand in the order of their bytes. -/
theorem compare_bytes (t u : Text) : compare (bytes t) (bytes u) = compare t u := by
  induction t generalizing u with
  | nil =>
    cases u with
    | nil => rfl
    | cons d u =>
      obtain ⟨b, r, hr⟩ := exists_bytes_cons d u
      rw [hr]
      rfl
  | cons c t ih =>
    cases u with
    | nil =>
      obtain ⟨b, r, hr⟩ := exists_bytes_cons c t
      rw [hr]
      rfl
    | cons d u =>
      rw [List.compare_cons_cons, ← ih]
      exact compare_append c d (bytes t) (bytes u)

end LineScript.Text
