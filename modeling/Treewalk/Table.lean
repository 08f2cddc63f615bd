import Treewalk.Sorting

/-!
Tables from names to values, kept in the order in which the names came.
-/

namespace Treewalk

/-- A table from names to values. A name occurs once. -/
structure Table (α : Type) where
  entries : List (String × α) := []

namespace Table

variable {α : Type}

/-- The value under a name in a list of entries. -/
def lookup (name : String) : List (String × α) → Option α
  | [] => none
  | (key, value) :: rest => if key = name then some value else lookup name rest

/-- Puts a value under a name: in the place of the old one, or at the end. -/
def insert (name : String) (value : α) : List (String × α) → List (String × α)
  | [] => [(name, value)]
  | (key, old) :: rest => if key = name then (name, value) :: rest else (key, old) :: insert name value rest

/-- The value under a name. -/
def get? (t : Table α) (name : String) : Option α :=
  lookup name t.entries

/-- Puts a value under a name, replacing the one that is there. -/
def put (t : Table α) (name : String) (value : α) : Table α :=
  ⟨insert name value t.entries⟩

/-- Puts several values under their names, in their order. -/
def putAll (t : Table α) (entries : List (String × α)) : Table α :=
  entries.foldl (fun t entry => t.put entry.1 entry.2) t

/-- Names in the order of their characters. -/
def nameLe (a b : String) : Bool :=
  !decide (b < a)

/-- The entries in the order of their names. -/
def sorted (t : Table α) : List (String × α) :=
  sortBy (fun a b => nameLe a.1 b.1) t.entries

/-- The names in their order. -/
def names (t : Table α) : List String :=
  t.sorted.map (·.1)

@[simp] theorem get?_empty (name : String) : (⟨[]⟩ : Table α).get? name = none := rfl

theorem lookup_insert (name key : String) (value : α) (entries : List (String × α)) :
    lookup key (insert name value entries) = if name = key then some value else lookup key entries := by
  induction entries with
  | nil => simp [insert, lookup]
  | cons entry rest ih =>
    obtain ⟨k, old⟩ := entry
    by_cases hk : k = name <;> by_cases hn : name = key <;> by_cases hkk : k = key <;> simp_all [insert, lookup]

/-- A table gives back what was put into it last, and keeps all else. -/
@[simp] theorem get?_put (t : Table α) (name key : String) (value : α) :
    (t.put name value).get? key = if name = key then some value else t.get? key :=
  lookup_insert name key value t.entries

end Table

end Treewalk
