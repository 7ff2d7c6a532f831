import LineScript.Text.Basic

/-! # Blanks

The blank characters are those with the `White_Space` property. Trimming removes them at both
ends and leaves those inside alone.
-/

namespace LineScript.Text

/-- Every character with the `White_Space` property, and no other. -/
def isBlank (c : Char) : Bool :=
  let n := c.toNat
  (0x9 ≤ n && n ≤ 0xD) || n == 0x20 || n == 0x85 || n == 0xA0 || n == 0x1680 ||
    (0x2000 ≤ n && n ≤ 0x200A) || n == 0x2028 || n == 0x2029 || n == 0x202F ||
    n == 0x205F || n == 0x3000

def trimStart (t : Text) : Text := t.dropWhile isBlank

def trimEnd (t : Text) : Text := (t.reverse.dropWhile isBlank).reverse

def trim (t : Text) : Text := trimEnd (trimStart t)

def endsBlank (t : Text) : Bool := t.getLast?.any isBlank

def Trimmed (t : Text) : Prop :=
  (∀ c ∈ t.head?, isBlank c = false) ∧ ∀ c ∈ t.getLast?, isBlank c = false

theorem head?_dropWhile_isBlank (t : Text) :
    ∀ c ∈ (t.dropWhile isBlank).head?, isBlank c = false := by
  intro c hc
  have h := List.head?_dropWhile_not isBlank t
  rw [Option.mem_def.mp hc] at h
  simpa using h

theorem dropWhile_isBlank_eq_self {t : Text} (h : ∀ c ∈ t.head?, isBlank c = false) :
    t.dropWhile isBlank = t := by
  cases t with
  | nil => rfl
  | cons c t => simp [h c rfl]

theorem trimEnd_eq_self {t : Text} (h : ∀ c ∈ t.getLast?, isBlank c = false) : trimEnd t = t := by
  unfold trimEnd
  rw [dropWhile_isBlank_eq_self (by simpa using h), List.reverse_reverse]

theorem trim_eq_self {t : Text} (h : Trimmed t) : trim t = t := by
  unfold trim trimStart
  rw [dropWhile_isBlank_eq_self h.1, trimEnd_eq_self h.2]

theorem trimEnd_prefix (t : Text) :
    ∃ b : Text, (∀ c ∈ b, isBlank c = true) ∧ t = trimEnd t ++ b := by
  refine ⟨(t.reverse.takeWhile isBlank).reverse, fun c hc => ?_, ?_⟩
  · exact List.all_eq_true.mp List.all_takeWhile c (List.mem_reverse.mp hc)
  · unfold trimEnd
    rw [← List.reverse_append, List.takeWhile_append_dropWhile, List.reverse_reverse]

theorem trimmed_trim (t : Text) : Trimmed (trim t) := by
  have hs := head?_dropWhile_isBlank t
  constructor
  · intro c hc
    obtain ⟨b, -, hb⟩ := trimEnd_prefix (trimStart t)
    refine hs c ?_
    change (trimStart t).head? = some c
    rw [hb, List.head?_append, show (trimEnd (trimStart t)).head? = some c from hc, Option.some_or]
  · intro c hc
    refine head?_dropWhile_isBlank (trimStart t).reverse c ?_
    simpa [trim, trimEnd] using hc

@[simp] theorem trim_trim (t : Text) : trim (trim t) = trim t := trim_eq_self (trimmed_trim t)

end LineScript.Text
