/-!
Lists in order. Sorting keeps the order of items that stand equal, and neither adds nor loses any.
-/

namespace Treewalk

variable {α : Type}

/-- Puts an item before the first one that it may precede. -/
def insertBy (le : α → α → Bool) (a : α) : List α → List α
  | [] => [a]
  | b :: rest => if le a b then a :: b :: rest else b :: insertBy le a rest

/-- The items in order. -/
def sortBy (le : α → α → Bool) : List α → List α
  | [] => []
  | a :: rest => insertBy le a (sortBy le rest)

theorem insertBy_perm (le : α → α → Bool) (a : α) (items : List α) :
    (insertBy le a items).Perm (a :: items) := by
  induction items with
  | nil => exact .refl _
  | cons b rest ih =>
    simp only [insertBy]
    split
    · exact .refl _
    · exact (List.Perm.cons b ih).trans (.swap a b rest)

/-- Sorting neither adds nor loses an item. -/
theorem sortBy_perm (le : α → α → Bool) (items : List α) : (sortBy le items).Perm items := by
  induction items with
  | nil => exact .refl _
  | cons a rest ih => exact (insertBy_perm le a _).trans (.cons a ih)

end Treewalk
