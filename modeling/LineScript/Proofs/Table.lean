import LineScript.Table

/-! # Tables as a whole

The names of a table are those it has a value for. Changing every value of a table in the same way
commutes with reading it and with writing to it.
-/

namespace LineScript

namespace Table

variable {α β : Type}

theorem mem_names {t : Table α} {name : Text} : name ∈ t.names ↔ t.contains name = true := by
  simp only [names, contains, get?, List.mem_map, List.lookup_isSome_iff]
  constructor
  · rintro ⟨e, he, rfl⟩
    exact ⟨e, he, by simp⟩
  · rintro ⟨e, he, hn⟩
    exact ⟨e, he, by simpa using (beq_iff_eq.mp hn).symm⟩

def map (f : α → β) (t : Table α) : Table β := ⟨t.entries.map fun e => (e.1, f e.2)⟩

theorem get?_map (f : α → β) (t : Table α) (name : Text) :
    (t.map f).get? name = (t.get? name).map f := by
  obtain ⟨es⟩ := t
  unfold map get?
  induction es with
  | nil => rfl
  | cons e es ih =>
    obtain ⟨n, a⟩ := e
    simp only [List.map_cons, List.lookup_cons] at ih ⊢
    cases name == n with
    | true => rfl
    | false => exact ih

theorem map_insert (f : α → β) (t : Table α) (name : Text) (a : α) :
    (t.insert name a).map f = (t.map f).insert name (f a) := by
  obtain ⟨es⟩ := t
  unfold map insert
  congr 1
  induction es with
  | nil => rfl
  | cons e es ih =>
    simp only [insertEntry, List.map_cons]
    split
    · rfl
    · rw [List.map_cons, ih]

end Table

end LineScript
