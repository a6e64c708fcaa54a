
/-!
# Tables

A table maps keys to entries. Its entries are listed in the order in which their keys were first
entered, and entering a key again changes its entry in place. Registries, stored parameter values
and coefficient maps are tables, because listings and exports follow this order.
-/
namespace LinearModel

/-- Entries by key, in order of first entry. -/
structure Table (κ α : Type) where
  toList : List (κ × α)

namespace Table

variable {κ α β : Type}

def empty : Table κ α := ⟨[]⟩

instance : Inhabited (Table κ α) := ⟨empty⟩

def keys (t : Table κ α) : List κ := t.toList.map (·.1)

def values (t : Table κ α) : List α := t.toList.map (·.2)

def size (t : Table κ α) : Nat := t.toList.length

def map (f : α → β) (t : Table κ α) : Table κ β := ⟨t.toList.map fun e => (e.1, f e.2)⟩

variable [BEq κ]

/-- The entry of a key in a list of entries. -/
def findIn (k : κ) : List (κ × α) → Option α
  | [] => none
  | e :: es => if e.1 == k then some e.2 else findIn k es

def find? (t : Table κ α) (k : κ) : Option α := findIn k t.toList

def contains (t : Table κ α) (k : κ) : Bool := (t.find? k).isSome

/-- A list of entries with the entry of a key changed, or added at the end. -/
def insertIn (k : κ) (a : α) : List (κ × α) → List (κ × α)
  | [] => [(k, a)]
  | e :: es => if e.1 == k then (e.1, a) :: es else e :: insertIn k a es

/-- Enter a key. A key that is there already keeps its place. -/
def insert (t : Table κ α) (k : κ) (a : α) : Table κ α := ⟨insertIn k a t.toList⟩

/-- Enter the keys of a list one after the other. -/
def insertAll (t : Table κ α) (es : List (κ × α)) : Table κ α :=
  es.foldl (fun t e => t.insert e.1 e.2) t

def ofList (es : List (κ × α)) : Table κ α := empty.insertAll es

@[simp] theorem find?_empty (k : κ) : (empty : Table κ α).find? k = none := rfl

/-- What was entered under a key is found under it, if the key equals itself. -/
theorem find?_insert_of_beq {k : κ} (hk : (k == k) = true) (t : Table κ α) (a : α) :
    (t.insert k a).find? k = some a := by
  obtain ⟨es⟩ := t
  simp only [insert, find?]
  induction es with
  | nil => simp [insertIn, findIn, hk]
  | cons e es ih =>
    by_cases h : (e.1 == k) = true
    · simp [insertIn, findIn, h]
    · simp [insertIn, findIn, h, ih]

theorem find?_insert_self [ReflBEq κ] (t : Table κ α) (k : κ) (a : α) :
    (t.insert k a).find? k = some a :=
  find?_insert_of_beq BEq.rfl t a

/-- Entering one key leaves the entries of the others. -/
theorem find?_insert_of_ne [LawfulBEq κ] (t : Table κ α) {k k' : κ} (a : α) (h : k ≠ k') :
    (t.insert k a).find? k' = t.find? k' := by
  obtain ⟨es⟩ := t
  simp only [insert, find?]
  induction es with
  | nil => simp [insertIn, findIn, h]
  | cons e es ih =>
    by_cases hk : (e.1 == k) = true
    · have hek : e.1 = k := LawfulBEq.eq_of_beq hk
      simp [insertIn, findIn, hek, h]
    · simp [insertIn, findIn, hk, ih]

end Table

end LinearModel
