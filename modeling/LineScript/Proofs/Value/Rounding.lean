import Mathlib.Algebra.Order.Field.Rat
import Mathlib.Algebra.Order.Ring.Abs
import Mathlib.Data.Nat.Cast.Order.Field
import Mathlib.Tactic.Linarith
import Mathlib.Tactic.LinearCombination
import Mathlib.Tactic.Positivity
import Mathlib.Tactic.Ring
import Mathlib.Tactic.FieldSimp
import LineScript.Value.Binary64

/-! # Correct rounding

A magnitude is representable if it has at most 53 significant bits. A quotient rounds to the nearest
representable magnitude; where two are equally near, to the one whose last bit is zero. No two
magnitudes satisfy this rule for one quotient, so rounding keeps the order of quotients, and it
changes no quotient that is representable.
-/

namespace LineScript.Binary64

/-! ### Significant bits -/

section Excess

variable {u v e : ℕ}

theorem lt_two_pow_excessBits (u : ℕ) : u < 2 ^ (53 + excessBits u) := by
  have hle : u.log2 + 1 ≤ 53 + excessBits u := by
    unfold excessBits
    omega
  exact Nat.lt_of_lt_of_le Nat.lt_log2_self (Nat.pow_le_pow_right (by decide) hle)

theorem two_pow_le_of_excessBits (h : excessBits u ≠ 0) : 2 ^ (52 + excessBits u) ≤ u := by
  have hlog : 52 + excessBits u = u.log2 := by
    unfold excessBits at *
    omega
  have hne : u ≠ 0 := by
    rintro rfl
    exact h rfl
  rw [hlog]
  exact Nat.log2_self_le hne

theorem excessBits_mono (h : u ≤ v) : excessBits u ≤ excessBits v := by
  by_cases he : excessBits u = 0
  · omega
  · have hlt : 2 ^ (52 + excessBits u) < 2 ^ (53 + excessBits v) :=
      (two_pow_le_of_excessBits he).trans_lt (h.trans_lt (lt_two_pow_excessBits v))
    have := (Nat.pow_lt_pow_iff_right (by decide)).mp hlt
    omega

theorem excessBits_eq (hl : e = 0 ∨ 2 ^ (52 + e) ≤ u) (hu : u < 2 ^ (53 + e)) :
    excessBits u = e := by
  have hle : excessBits u ≤ e := by
    by_contra hlt
    have := (Nat.pow_lt_pow_iff_right (by decide)).mp
      ((two_pow_le_of_excessBits (by omega)).trans_lt hu)
    omega
  rcases hl with rfl | hl
  · omega
  · have := (Nat.pow_lt_pow_iff_right (by decide)).mp (hl.trans_lt (lt_two_pow_excessBits u))
    omega

end Excess

/-- The magnitude has at most 53 significant bits. -/
def Representable (u : ℕ) : Prop := ∃ m e, m < 2 ^ 53 ∧ u = m * 2 ^ e

theorem representable_mul_two_pow {m : ℕ} (hm : m ≤ 2 ^ 53) (e : ℕ) :
    Representable (m * 2 ^ e) := by
  rcases hm.lt_or_eq with hm | rfl
  · exact ⟨m, e, hm, rfl⟩
  · exact ⟨1, 53 + e, by decide, by rw [one_mul, pow_add]⟩

theorem Representable.dvd {v e : ℕ} (h : Representable v) (he : e = 0 ∨ 2 ^ (52 + e) ≤ v) :
    2 ^ e ∣ v := by
  obtain ⟨m, k, hm, rfl⟩ := h
  rcases he with rfl | he
  · exact ⟨_, by rw [pow_zero, one_mul]⟩
  · have hlt : m * 2 ^ k < 2 ^ (53 + k) := by
      rw [pow_add]
      exact Nat.mul_lt_mul_of_pos_right hm (by positivity)
    have hek := (Nat.pow_lt_pow_iff_right (by decide)).mp (he.trans_lt hlt)
    exact Dvd.dvd.mul_left (Nat.pow_dvd_pow 2 (by omega)) m

theorem Representable.dvd_of_le {u v : ℕ} (h : Representable v) (huv : u ≤ v) :
    2 ^ excessBits u ∣ v := by
  refine h.dvd ?_
  by_cases he : excessBits u = 0
  · exact .inl he
  · exact .inr ((two_pow_le_of_excessBits he).trans huv)

theorem Representable.add_two_pow {u : ℕ} (h : Representable u) :
    Representable (u + 2 ^ excessBits u) := by
  obtain ⟨m, hm⟩ := h.dvd_of_le le_rfl
  have hlt : m < 2 ^ 53 := by
    have hlt : 2 ^ excessBits u * m < 2 ^ excessBits u * 2 ^ 53 := by
      rw [← hm, ← pow_add, Nat.add_comm]
      exact lt_two_pow_excessBits u
    exact Nat.lt_of_mul_lt_mul_left hlt
  have hs : u + 2 ^ excessBits u = (m + 1) * 2 ^ excessBits u := by
    rw [add_mul, one_mul, Nat.mul_comm m, ← hm]
  rw [hs]
  exact representable_mul_two_pow hlt _

/-! ### The rule -/

section Distance

variable {x a b w : ℚ}

theorem middle_le (hab : a < b) (h : |x - b| ≤ |x - a|) : a + b ≤ 2 * x := by
  have hsq := sq_le_sq.mpr h
  by_contra hlt
  nlinarith

theorem le_middle (hab : a < b) (h : |x - a| ≤ |x - b|) : 2 * x ≤ a + b := by
  have hsq := sq_le_sq.mpr h
  by_contra hlt
  nlinarith

theorem abs_sub_lt_of_between (h : |x - a| = |x - b|) (haw : a < w) (hwb : w < b) :
    |x - w| < |x - a| := by
  have hlow := middle_le (haw.trans hwb) h.ge
  have hhigh := le_middle (haw.trans hwb) h.le
  rw [abs_of_pos (show 0 < x - a by linarith), abs_lt]
  constructor <;> linarith

end Distance

/-- The magnitude `u` is the one to which the exact magnitude `x`, in units, is rounded. -/
structure RoundsTo (x : ℚ) (u : ℕ) : Prop where
  representable : Representable u
  nearest : ∀ v, Representable v → |x - u| ≤ |x - v|
  /-- Of two that are equally near, the last bit is zero in the one that is taken. -/
  even : ∀ v, Representable v → v ≠ u → |x - v| = |x - u| → 2 ^ (excessBits u + 1) ∣ u

namespace RoundsTo

variable {x y : ℚ} {u v : ℕ}

theorem self (hv : Representable v) : RoundsTo v v := by
  refine ⟨hv, fun w _ => ?_, fun w _ hne htie => ?_⟩
  · rw [sub_self, abs_zero]
    exact abs_nonneg _
  · rw [sub_self, abs_zero, abs_eq_zero, sub_eq_zero] at htie
    exact absurd (by exact_mod_cast htie.symm) hne

theorem le_of_roundsTo (h : RoundsTo x u) (h' : RoundsTo x v) : v ≤ u := by
  by_contra! hlt
  have hd : |x - u| = |x - v| :=
    le_antisymm (h.nearest v h'.representable) (h'.nearest u h.representable)
  have hu : 2 ^ (excessBits u + 1) ∣ u := h.even v h'.representable hlt.ne' hd.symm
  have hv : 2 ^ (excessBits u + 1) ∣ v :=
    (Nat.pow_dvd_pow 2 (Nat.succ_le_succ (excessBits_mono hlt.le))).trans
      (h'.even u h.representable hlt.ne hd)
  have hgap : u + 2 ^ (excessBits u + 1) ≤ v := by
    have := Nat.le_of_dvd (Nat.sub_pos_of_lt hlt) (Nat.dvd_sub hv hu)
    omega
  have hpos : 0 < 2 ^ excessBits u := by positivity
  rw [pow_succ] at hgap
  have hlow : (u : ℚ) < (u + 2 ^ excessBits u : ℕ) := by exact_mod_cast (by omega)
  have hhigh : ((u + 2 ^ excessBits u : ℕ) : ℚ) < v := by exact_mod_cast (by omega)
  have hnear := h.nearest _ h.representable.add_two_pow
  exact (abs_sub_lt_of_between hd hlow hhigh).not_ge hnear

theorem unique (h : RoundsTo x u) (h' : RoundsTo x v) : u = v :=
  le_antisymm (h'.le_of_roundsTo h) (h.le_of_roundsTo h')

theorem mono (h : RoundsTo x u) (h' : RoundsTo y v) (hxy : x ≤ y) : u ≤ v := by
  by_contra! hlt
  have hvu : (v : ℚ) < u := by exact_mod_cast hlt
  have hx := middle_le hvu (h.nearest v h'.representable)
  have hy := le_middle hvu (h'.nearest u h.representable)
  obtain rfl : x = y := by linarith
  exact hlt.ne (h'.unique h)

end RoundsTo

/-! ### The rounding of quotients -/

theorem roundQuotient_nearest (n : ℕ) {d : ℕ} (hd : 0 < d) :
    |(n / d : ℚ) - roundQuotient n d| ≤ 1 / 2 := by
  have hd' : (0 : ℚ) < d := by exact_mod_cast hd
  obtain ⟨hle, hge⟩ := two_mul_roundQuotient_le n hd
  have hle : 2 * ((roundQuotient n d : ℚ) * d) ≤ 2 * n + d := by exact_mod_cast hle
  have hge : (2 : ℚ) * n ≤ 2 * (roundQuotient n d * d) + d := by exact_mod_cast hge
  have hn : (n : ℚ) = n / d * d := by field_simp
  rw [abs_le]
  constructor <;> nlinarith

theorem even_roundQuotient (n : ℕ) {d : ℕ} (hd : 0 < d)
    (h : |(n / d : ℚ) - roundQuotient n d| = 1 / 2) : 2 ∣ roundQuotient n d := by
  have hd' : (0 : ℚ) < d := by exact_mod_cast hd
  have hhalf : 2 * n = 2 * (roundQuotient n d * d) + d ∨
      2 * n + d = 2 * (roundQuotient n d * d) := by
    have hn : (n : ℚ) = n / d * d := by field_simp
    rcases (abs_eq (by norm_num)).mp h with h | h
    · left
      have : 2 * (n : ℚ) = 2 * (roundQuotient n d * d) + d := by
        linear_combination 2 * d * h + 2 * hn
      exact_mod_cast this
    · right
      have : 2 * (n : ℚ) + d = 2 * (roundQuotient n d * d) := by
        linear_combination 2 * d * h + 2 * hn
      exact_mod_cast this
  have hn : n / d * d + n % d = n := Nat.div_add_mod' n d
  have hr : n % d < d := Nat.mod_lt n hd
  unfold roundQuotient at hhalf ⊢
  dsimp only at hhalf ⊢
  split at hhalf
  · next hc =>
    rw [if_pos hc]
    omega
  · next hc =>
    rw [if_neg hc]
    rw [add_mul] at hhalf
    omega

theorem nearest_multiple {x s : ℚ} {r : ℕ} (hs : 0 < s) (hr : |x - r * s| ≤ s / 2) (k : ℕ) :
    |x - r * s| ≤ |x - k * s| ∧ (k ≠ r → |x - k * s| = |x - r * s| → |x - r * s| = s / 2) := by
  by_cases hk : k = r
  · simp [hk]
  · have hone : (1 : ℚ) ≤ |(k : ℚ) - r| := by
      have : (1 : ℤ) ≤ |(k : ℤ) - r| := Int.one_le_abs (by omega)
      exact_mod_cast this
    have hstep : s ≤ |x - r * s| + |x - k * s| := by
      calc s ≤ |(k : ℚ) - r| * s := by nlinarith
        _ = |((k : ℚ) - r) * s| := by rw [abs_mul, abs_of_pos hs]
        _ = |(x - r * s) - (x - k * s)| := by ring_nf
        _ ≤ |x - r * s| + |x - k * s| := abs_sub _ _
    constructor
    · linarith
    · intro _ h
      linarith

section Grid

variable {x : ℚ} {r e : ℕ} (hlow : e = 0 ∨ (2 : ℚ) ^ (52 + e) ≤ x)
  (hr : |x - r * 2 ^ e| ≤ 2 ^ e / 2)

include hlow hr

/-- The nearest multiple of `2 ^ e` is nearest to `x` among all representable magnitudes. -/
theorem nearest_representable {v : ℕ} (hv : Representable v) :
    |x - r * 2 ^ e| ≤ |x - v| ∧
      (v ≠ r * 2 ^ e → |x - v| = |x - r * 2 ^ e| → |x - r * 2 ^ e| = 2 ^ e / 2) := by
  have hs : (0 : ℚ) < 2 ^ e := by positivity
  by_cases hve : e = 0 ∨ 2 ^ (52 + e) ≤ v
  · obtain ⟨k, rfl⟩ := hv.dvd hve
    obtain ⟨hnear, htie⟩ := nearest_multiple hs hr k
    rw [Nat.mul_comm]
    push_cast
    exact ⟨hnear, fun hne => htie fun hk => hne (by rw [hk])⟩
  · -- below the multiples with all 53 bits the magnitudes are farther away than the least of these
    obtain ⟨he, hve⟩ := not_or.mp hve
    have hx := hlow.resolve_left he
    have hvx : (v : ℚ) < 2 ^ (52 + e) := by exact_mod_cast not_le.mp hve
    have hleast := (nearest_multiple hs hr (2 ^ 52)).1
    have hfull : ((2 ^ 52 : ℕ) : ℚ) * 2 ^ e = 2 ^ (52 + e) := by
      rw [pow_add]
      norm_num
    rw [hfull, abs_of_nonneg (sub_nonneg.mpr hx)] at hleast
    have hfar : |x - r * 2 ^ e| < |x - v| := by
      rw [abs_of_pos (show 0 < x - v by linarith)]
      linarith
    exact ⟨hfar.le, fun _ h => absurd h hfar.ne'⟩

theorem le_multiple : e = 0 ∨ 2 ^ 52 ≤ r := by
  refine hlow.imp_right fun hx => ?_
  by_contra hlt
  have hlt : (r : ℚ) + 1 ≤ 2 ^ 52 := by exact_mod_cast not_le.mp hlt
  have hs : (0 : ℚ) < 2 ^ e := by positivity
  have hle := (abs_le.mp hr).2
  rw [pow_add] at hx
  nlinarith

omit hlow in
theorem multiple_le (hhigh : x < 2 ^ (53 + e)) : r ≤ 2 ^ 53 := by
  by_contra hlt
  have hlt : (2 : ℚ) ^ 53 + 1 ≤ r := by exact_mod_cast not_le.mp hlt
  have hs : (0 : ℚ) < 2 ^ e := by positivity
  have hge := (abs_le.mp hr).1
  rw [pow_add] at hhigh
  nlinarith

theorem roundsTo_multiple (hhigh : x < 2 ^ (53 + e))
    (heven : |x - r * 2 ^ e| = 2 ^ e / 2 → 2 ∣ r) : RoundsTo x (r * 2 ^ e) := by
  have hle := multiple_le hr hhigh
  have hge := le_multiple hlow hr
  have hcast : ((r * 2 ^ e : ℕ) : ℚ) = r * 2 ^ e := by push_cast; rfl
  refine ⟨representable_mul_two_pow hle e, fun v hv => ?_, fun v hv hne htie => ?_⟩
  · rw [hcast]
    exact (nearest_representable hlow hr hv).1
  · rw [hcast] at htie
    have htwo := heven ((nearest_representable hlow hr hv).2 hne htie)
    rcases hle.lt_or_eq with hlt | rfl
    · have hex : excessBits (r * 2 ^ e) = e := by
        refine excessBits_eq (hge.imp_right fun hge => ?_) ?_
        · rw [pow_add]
          exact Nat.mul_le_mul_right _ hge
        · rw [pow_add]
          exact Nat.mul_lt_mul_of_pos_right hlt (by positivity)
      rw [hex, pow_succ, Nat.mul_comm]
      exact Nat.mul_dvd_mul_right htwo _
    · -- a carry out of the last bit leaves nothing but zeros
      have hex : excessBits (2 ^ 53 * 2 ^ e) = e + 1 := by
        rw [← pow_add]
        refine excessBits_eq (.inr ?_) ?_
        · exact Nat.pow_le_pow_right (by decide) (by omega)
        · exact Nat.pow_lt_pow_right (by decide) (by omega)
      rw [hex, ← pow_add]
      exact Nat.pow_dvd_pow 2 (by omega)

end Grid

theorem roundsTo_excessBits (n : ℕ) {d : ℕ} (hd : 0 < d) :
    RoundsTo (n / d) (roundQuotient n (d * 2 ^ excessBits (n / d)) * 2 ^ excessBits (n / d)) := by
  obtain ⟨e, he⟩ : ∃ e, e = excessBits (n / d) := ⟨_, rfl⟩
  rw [← he]
  have hd' : (0 : ℚ) < d := by exact_mod_cast hd
  have hs : (0 : ℚ) < 2 ^ e := by positivity
  have hde : 0 < d * 2 ^ e := by positivity
  have hscale : |(n / d : ℚ) - roundQuotient n (d * 2 ^ e) * 2 ^ e| =
      |(n / (d * 2 ^ e : ℕ) : ℚ) - roundQuotient n (d * 2 ^ e)| * 2 ^ e := by
    rw [← abs_of_pos hs, ← abs_mul, abs_of_pos hs]
    congr 1
    push_cast
    field_simp
  refine roundsTo_multiple ?_ ?_ ?_ ?_
  · by_cases h : e = 0
    · exact .inl h
    · right
      calc (2 : ℚ) ^ (52 + e) ≤ (n / d : ℕ) := by
            exact_mod_cast he ▸ two_pow_le_of_excessBits (he ▸ h)
        _ ≤ n / d := Nat.cast_div_le
  · rw [hscale]
    have := roundQuotient_nearest n hde
    nlinarith
  · have hlt := lt_two_pow_excessBits (n / d)
    rw [← he, Nat.div_lt_iff_lt_mul hd] at hlt
    rw [div_lt_iff₀ hd']
    exact_mod_cast hlt
  · rw [hscale]
    intro h
    refine even_roundQuotient n hde ?_
    have : (2 : ℚ) ^ e ≠ 0 := hs.ne'
    field_simp at h ⊢
    linarith

/-- A quotient is rounded to the nearest representable magnitude, and to the even one of two. -/
theorem roundsTo_roundUnits (n : ℕ) {d : ℕ} (hd : 0 < d) :
    RoundsTo (n / d * pow2 1074) (roundUnits n d) := by
  have hx : (n / d * pow2 1074 : ℚ) = (n * pow2 1074 : ℕ) / d := by
    push_cast
    ring
  rw [hx]
  exact roundsTo_excessBits _ hd

/-! ### Finite results -/

theorem representable_mul_pow2 {m : ℕ} (hm : m ≤ 2 ^ 53) (e : ℕ) : Representable (m * pow2 e) :=
  representable_mul_two_pow hm e

theorem two_pow_mul_pow2_lt {k e e' : ℕ} (h : k + e < e') : 2 ^ k * pow2 e < pow2 e' := by
  have hlt : 2 ^ (k + e) < 2 ^ e' := Nat.pow_lt_pow_right (by decide) h
  rwa [pow_add] at hlt

theorem exists_ofRatio? (negative : Bool) {n d : ℕ} (hd : 0 < d) (h : n ≤ 2 ^ 53 * d) :
    ∃ x, ofRatio? negative n d = some x ∧ x.negative = negative ∧
      RoundsTo (n / d * pow2 1074) x.units := by
  have hd' : (0 : ℚ) < d := by exact_mod_cast hd
  have hquotient : (n / d : ℚ) ≤ (2 ^ 53 : ℕ) := by
    rw [div_le_iff₀ hd']
    exact_mod_cast h
  have hr := roundsTo_roundUnits n hd
  have hle : roundUnits n d ≤ 2 ^ 53 * pow2 1074 := by
    refine hr.mono (.self (representable_mul_pow2 le_rfl 1074)) ?_
    rw [Nat.cast_mul]
    exact mul_le_mul_of_nonneg_right hquotient (Nat.cast_nonneg _)
  have hlt : roundUnits n d < overflow := hle.trans_lt (two_pow_mul_pow2_lt (by decide))
  exact ⟨⟨negative, roundUnits n d⟩, by rw [ofRatio?, if_pos hlt], rfl, hr⟩

end LineScript.Binary64
