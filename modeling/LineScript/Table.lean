import LineScript.Text.Basic

/-! # Tables

A table maps names to values. A new name is appended; writing to a name that is present replaces
its value in place.
-/

namespace LineScript

structure Table (α : Type) where
  entries : List (Text × α) := []
  deriving DecidableEq, Repr

namespace Table

variable {α : Type}

def insertEntry (name : Text) (a : α) : List (Text × α) → List (Text × α)
  | [] => [(name, a)]
  | (n, b) :: es => if n = name then (n, a) :: es else (n, b) :: insertEntry name a es

def insert (t : Table α) (name : Text) (a : α) : Table α := ⟨insertEntry name a t.entries⟩

def get? (t : Table α) (name : Text) : Option α := t.entries.lookup name

def contains (t : Table α) (name : Text) : Bool := (t.get? name).isSome

def names (t : Table α) : List Text := t.entries.map Prod.fst

theorem lookup_insertEntry (es : List (Text × α)) (m n : Text) (a : α) :
    (insertEntry m a es).lookup n = if n = m then some a else es.lookup n := by
  induction es with
  | nil => grind [insertEntry]
  | cons e es ih => grind [insertEntry]

@[simp] theorem get?_insert (t : Table α) (m n : Text) (a : α) :
    (t.insert m a).get? n = if n = m then some a else t.get? n :=
  lookup_insertEntry t.entries m n a

theorem contains_insert (t : Table α) (m n : Text) (a : α) :
    (t.insert m a).contains n = (n == m || t.contains n) := by
  by_cases h : n = m <;> simp [contains, h]

end Table

end LineScript
