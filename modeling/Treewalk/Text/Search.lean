/-!
Splitting and replacing at the occurrences of a text in another. Occurrences are found from the left and do not
overlap.
-/

namespace Treewalk.Text

/-- What follows `front` at the start of a list, if it stands there. -/
def dropFront? : List Char → List Char → Option (List Char)
  | [], cs => some cs
  | _ :: _, [] => none
  | f :: front, c :: cs => if f = c then dropFront? front cs else none

theorem length_of_dropFront? {front cs rest : List Char} (h : dropFront? front cs = some rest) :
    cs.length = front.length + rest.length := by
  induction front generalizing cs with
  | nil => simp_all [dropFront?]
  | cons f front ih =>
    cases cs with
    | nil => simp [dropFront?] at h
    | cons c cs =>
      simp only [dropFront?] at h
      split at h
      · have := ih h
        simp only [List.length_cons]
        omega
      · cases h

/-- Puts a character in front of the first piece. -/
def extendFirst (c : Char) : List (List Char) → List (List Char)
  | [] => [[c]]
  | piece :: pieces => (c :: piece) :: pieces

/-- The pieces between the occurrences of a separator; an empty separator occurs nowhere. -/
def pieces (separator : List Char) : List Char → List (List Char)
  | [] => [[]]
  | c :: cs =>
    if separator = [] then extendFirst c (pieces separator cs)
    else
      match h : dropFront? separator (c :: cs) with
      | some rest =>
        have := length_of_dropFront? h
        [] :: pieces separator rest
      | none => extendFirst c (pieces separator cs)
termination_by cs => cs.length
decreasing_by
  · simp
  · rename_i found
    have := List.length_pos_iff.mpr found
    simp only [List.length_cons] at *
    omega
  · simp

/-- Writes `new` for each occurrence of `old`; an empty `old` occurs nowhere. -/
def substitute (old new : List Char) : List Char → List Char
  | [] => []
  | c :: cs =>
    if old = [] then c :: substitute old new cs
    else
      match h : dropFront? old (c :: cs) with
      | some rest =>
        have := length_of_dropFront? h
        new ++ substitute old new rest
      | none => c :: substitute old new cs
termination_by cs => cs.length
decreasing_by
  · simp
  · rename_i found
    have := List.length_pos_iff.mpr found
    simp only [List.length_cons] at *
    omega
  · simp

/-- The pieces of a text between the occurrences of a separator, or its characters if the separator is empty. -/
def split (text separator : String) : List String :=
  if separator.isEmpty then text.toList.map fun c => String.ofList [c]
  else (pieces separator.toList text.toList).map String.ofList

/-- Writes `new` for each occurrence of `old` in a text; an empty `old` leaves it as it is. -/
def replace (text old new : String) : String :=
  String.ofList (substitute old.toList new.toList text.toList)

end Treewalk.Text
