import Mathlib.Data.List.Infix
import Treewalk.Text.Search

/-!
Occurrences of a text in another. Splitting cuts a text at its leftmost occurrence of the separator, and goes on behind it.
So no piece contains the separator, the pieces joined by it are the text, and joined by another text they are what comes
out when the occurrences are replaced.
-/

namespace Treewalk.Text

variable {separator front cs rest : List Char}

/-! ### Occurrences at the front -/

theorem dropFront?_eq_some_iff : dropFront? front cs = some rest ↔ cs = front ++ rest := by
  induction front generalizing cs with
  | nil => simp [dropFront?]
  | cons f front ih =>
    cases cs with
    | nil => simp [dropFront?]
    | cons c cs =>
      simp only [dropFront?, List.cons_append, List.cons.injEq]
      split
      · next heq => rw [ih, heq, eq_self, true_and]
      · next hne =>
        constructor
        · intro h
          cases h
        · exact fun h => absurd h.1.symm hne

theorem dropFront?_eq_none_iff : dropFront? front cs = none ↔ ¬front <+: cs := by
  rw [Option.eq_none_iff_forall_not_mem]
  constructor
  · rintro h ⟨rest, heq⟩
    exact h rest (dropFront?_eq_some_iff.mpr heq.symm)
  · intro h rest hrest
    exact h ⟨rest, (dropFront?_eq_some_iff.mp hrest).symm⟩

/-! ### Pieces -/

/-- The pieces of a text: the last one does not contain the separator, and each of the others goes up to the leftmost
occurrence in what is left. -/
inductive Splits (separator : List Char) : List Char → List (List Char) → Prop where
  | last {text : List Char} (h : ¬separator <:+: text) : Splits separator text [text]
  | cut {piece rest : List Char} {pieces : List (List Char)}
      (leftmost : ∀ before after, piece ++ separator ++ rest = before ++ separator ++ after → piece.length ≤ before.length)
      (h : Splits separator rest pieces) : Splits separator (piece ++ separator ++ rest) (piece :: pieces)

namespace Splits

variable {text piece : List Char} {ps : List (List Char)}

theorem ne_nil (h : Splits separator text ps) : ps ≠ [] := by
  cases h with
  | last _ => exact List.cons_ne_nil _ _
  | cut _ _ => exact List.cons_ne_nil _ _

theorem intercalate_eq (h : Splits separator text ps) : separator.intercalate ps = text := by
  induction h with
  | last _ => exact List.intercalate_singleton
  | cut _ h ih => rw [List.intercalate_cons_of_ne_nil h.ne_nil, ih]

theorem not_infix (hne : separator ≠ []) (h : Splits separator text ps) : ∀ piece ∈ ps, ¬separator <:+: piece := by
  induction h with
  | last h => exact fun piece hpiece => List.mem_singleton.mp hpiece ▸ h
  | @cut first rest ps leftmost _ ih =>
    refine List.forall_mem_cons.mpr ⟨?_, ih⟩
    -- an occurrence within the piece would be further to the left
    rintro ⟨before, after, rfl⟩
    have hle := leftmost before (after ++ separator ++ rest) (by simp only [List.append_assoc])
    have hpos := List.length_pos_iff.mpr hne
    simp only [List.length_append] at hle
    omega

/-- One more character in front of a text, where the separator does not occur at once. -/
theorem cons {c : Char} (hfront : ¬separator <+: c :: text) (h : Splits separator text ps) :
    Splits separator (c :: text) (extendFirst c ps) := by
  cases h with
  | last h =>
    refine .last fun hinfix => ?_
    rcases List.infix_cons_iff.mp hinfix with hprefix | hinfix
    · exact hfront hprefix
    · exact h hinfix
  | @cut piece rest ps leftmost h =>
    show Splits separator ((c :: piece) ++ separator ++ rest) _
    refine .cut (fun before after heq => ?_) h
    cases before with
    | nil => exact absurd ⟨after, heq.symm⟩ hfront
    | cons b before =>
      simp only [List.cons_append, List.cons.injEq] at heq
      exact Nat.succ_le_succ (leftmost before after heq.2)

end Splits

theorem splits_pieces (hne : separator ≠ []) (cs : List Char) : Splits separator cs (pieces separator cs) := by
  fun_induction pieces separator cs with
  | case1 => exact .last fun h => hne (List.infix_nil.mp h)
  | case2 c cs hnil => exact absurd hnil hne
  | case3 c cs _ rest hdrop _ ih =>
    have hcut : Splits separator ([] ++ separator ++ rest) ([] :: pieces separator rest) :=
      .cut (fun _ _ _ => Nat.zero_le _) ih
    rw [dropFront?_eq_some_iff.mp hdrop]
    exact hcut
  | case4 c cs _ hdrop ih => exact ih.cons (dropFront?_eq_none_iff.mp hdrop)

theorem intercalate_extendFirst (new : List Char) (c : Char) {ps : List (List Char)} (h : ps ≠ []) :
    new.intercalate (extendFirst c ps) = c :: new.intercalate ps := by
  cases ps with
  | nil => exact absurd rfl h
  | cons piece ps => exact List.intercalate_cons_cons_left

theorem substitute_of_some {old new : List Char} {c : Char} (hne : old ≠ []) (h : dropFront? old (c :: cs) = some rest) :
    substitute old new (c :: cs) = new ++ substitute old new rest := by
  rw [substitute, if_neg hne]
  split
  · next hfound =>
    rw [h] at hfound
    cases hfound
    rfl
  · next hnone =>
    rw [h] at hnone
    cases hnone

theorem substitute_of_none {old new : List Char} {c : Char} (hne : old ≠ []) (h : dropFront? old (c :: cs) = none) :
    substitute old new (c :: cs) = c :: substitute old new cs := by
  rw [substitute, if_neg hne]
  split
  · next hfound =>
    rw [h] at hfound
    cases hfound
  · rfl

/-- What is written for the separator joins the pieces. -/
theorem intercalate_pieces (hne : separator ≠ []) (new cs : List Char) :
    new.intercalate (pieces separator cs) = substitute separator new cs := by
  fun_induction pieces separator cs with
  | case1 => rw [substitute, List.intercalate_singleton]
  | case2 c cs hnil => exact absurd hnil hne
  | case3 c cs _ rest hdrop _ ih =>
    rw [List.intercalate_cons_of_ne_nil (splits_pieces hne rest).ne_nil, ih, substitute_of_some hne hdrop]
    rfl
  | case4 c cs _ hdrop ih =>
    rw [intercalate_extendFirst new c (splits_pieces hne cs).ne_nil, ih, substitute_of_none hne hdrop]

theorem substitute_nil (new cs : List Char) : substitute [] new cs = cs := by
  induction cs with
  | nil => rw [substitute]
  | cons c cs ih => rw [substitute, if_pos rfl, ih]

/-! ### Texts -/

theorem map_toList_split {text separator : String} (hne : separator ≠ "") :
    (split text separator).map String.toList = pieces separator.toList text.toList := by
  rw [split, if_neg (by rwa [String.isEmpty_iff]), List.map_map]
  have hid : String.toList ∘ String.ofList = id := funext fun _ => String.toList_ofList
  rw [hid, List.map_id]

theorem splits_split (text : String) {separator : String} (hne : separator ≠ "") :
    Splits separator.toList text.toList ((split text separator).map String.toList) := by
  rw [map_toList_split hne]
  exact splits_pieces (by simpa using hne) text.toList

theorem intercalate_split {text separator : String} (hne : separator ≠ "") (new : String) :
    new.intercalate (split text separator) = replace text separator new := by
  rw [← String.toList_inj, String.toList_intercalate, map_toList_split hne, replace, String.toList_ofList]
  exact intercalate_pieces (by simpa using hne) new.toList text.toList

theorem split_empty (text : String) : split text "" = text.toList.map fun c => String.ofList [c] := if_pos rfl

theorem join_split_empty (text : String) : String.join (split text "") = text := by
  rw [← String.toList_inj, String.toList_join, split_empty, List.flatMap_map]
  simp

theorem replace_empty (text new : String) : replace text "" new = text := by
  rw [replace, String.toList_empty, substitute_nil, String.ofList_toList]

end Treewalk.Text
