import Treewalk.Machine.Operator
import Treewalk.Proofs.Machine.Natives
import Treewalk.Proofs.Number.Doubles

/-!
Positions given by numbers. A number stands for the position that is left when its fraction is dropped. An array has an item
exactly at the positions below its length; every other number, what is not a number included, is out of bounds. The part of a
text between two numbers is taken exactly if they are in order and within the text, and every other pair is out of bounds; only
where one of the two is not a number, that is not asked of it, and nothing lies between it and the other one.
-/

namespace Treewalk

open Library Native

namespace Number

/-- The double, without its fraction, lies below the number. -/
def Before (x : Float) (i : ℤ) : Prop := exact x = .infinite true ∨ ∃ j < i, truncation? x = some j

/-- The double, without its fraction, lies above the number. -/
def Beyond (x : Float) (i : ℤ) : Prop := exact x = .infinite false ∨ ∃ j > i, truncation? x = some j

/-- The two doubles, without their fractions, are the positions, which are in order and not beyond the length. -/
structure Within (length : ℕ) (start finish : Float) (a b : ℕ) : Prop where
  start : truncation? start = some (a : ℤ)
  finish : truncation? finish = some (b : ℤ)
  order : a ≤ b
  length : b ≤ length

theorem truncation?_of_finite {x : Float} {negative : Bool} {m : Magnitude} (h : exact x = .finite negative m) :
    truncation? x = some (if negative then -(m.floor : ℤ) else m.floor) := by
  rw [← integerPart?_eq, integerPart?, h]

theorem truncation?_of_isNaN {x : Float} (h : x.isNaN = true) : truncation? x = none := by
  rw [← integerPart?_eq, integerPart?, isNaN_iff.mp h]

theorem truncation?_of_infinite {x : Float} {negative : Bool} (h : exact x = .infinite negative) : truncation? x = none := by
  rw [← integerPart?_eq, integerPart?, h]

end Number

open Number

/-- What a number is as a bound of a part: infinite, or the position that is left of it. -/
theorem Native.Bound.ofNumber_cases {x : Float} (h : x.isNaN = false) :
    (∃ negative, Bound.ofNumber x = .infinite negative) ∨ ∃ i, truncation? x = some i ∧ Bound.ofNumber x = .whole i := by
  unfold Bound.ofNumber
  cases hx : exact x with
  | nan =>
    rw [isNaN_iff.mpr hx] at h
    cases h
  | infinite negative => exact .inl ⟨negative, rfl⟩
  | finite negative m => exact .inr ⟨_, truncation?_of_finite hx, rfl⟩

theorem Native.Bound.ofNumber_of_truncation? {x : Float} {i : ℤ} (h : truncation? x = some i) :
    Bound.ofNumber x = .whole i := by
  unfold Bound.ofNumber
  rw [← integerPart?_eq, integerPart?] at h
  cases hx : exact x with
  | nan | infinite =>
    rw [hx] at h
    cases h
  | finite negative m =>
    rw [hx] at h
    exact congrArg Bound.whole (Option.some.inj h)

theorem Native.Bound.ofNumber_of_isNaN {x : Float} (h : x.isNaN = true) : Bound.ofNumber x = .nan := by
  rw [Bound.ofNumber, isNaN_iff.mp h]

/-- The check of two bounds: the first one is below the text, the second one below the first one or beyond the text. -/
def Native.Bound.refused (length : ℕ) (a b : Bound) : Bool :=
  a.below (.whole 0) || b.below a || Bound.below (.whole length) b

theorem Library.answers_substr (s : String) (start finish : Float) :
    Answers "std::str" "substr" [.string s, .number start, .number finish]
      (if Bound.refused s.length (Bound.ofNumber start) (Bound.ofNumber finish) then
        .error (.substringRange (truncate start) (truncate finish) s.length)
      else .ok (.string (String.ofList (between (Bound.ofNumber start) (Bound.ofNumber finish) s.toList)))) :=
  answers_of rfl rfl fun _ => rfl

/-! ### Texts -/

section Parts

variable {s : String} {start finish : Float}

theorem answers_within {a b : ℕ} (h : Within s.length start finish a b) :
    Answers "std::str" "substr" [.string s, .number start, .number finish]
      (.ok (.string (String.ofList ((s.toList.drop a).take (b - a))))) := by
  have hanswer := answers_substr s start finish
  rw [Bound.ofNumber_of_truncation? h.start, Bound.ofNumber_of_truncation? h.finish, if_neg] at hanswer
  · have hcount : ((b : ℤ) - a).toNat = b - a := by omega
    rwa [between, hcount] at hanswer
  · have horder := h.order
    have hlength := h.length
    simp only [Bound.refused, Bound.below, Bool.or_eq_true, decide_eq_true_eq]
    omega

/-- Bounds that are not refused are within the text, unless one of them is not a number. -/
theorem exists_within (hstart : start.isNaN = false) (hfinish : finish.isNaN = false)
    (h : Bound.refused s.length (Bound.ofNumber start) (Bound.ofNumber finish) = false) :
    ∃ a b, Within s.length start finish a b := by
  rcases Bound.ofNumber_cases hstart with ⟨negative, ha⟩ | ⟨i, hi, ha⟩
  · -- an infinite start is below the text, or the end is below it or beyond the text
    rcases Bound.ofNumber_cases hfinish with ⟨negative', hb⟩ | ⟨j, -, hb⟩
    · rw [ha, hb] at h
      cases negative <;> cases negative' <;> cases h
    · rw [ha, hb] at h
      cases negative <;> simp [Bound.refused, Bound.below] at h
  · rcases Bound.ofNumber_cases hfinish with ⟨negative', hb⟩ | ⟨j, hj, hb⟩
    · rw [ha, hb] at h
      cases negative' <;> simp [Bound.refused, Bound.below] at h
    · rw [ha, hb] at h
      simp only [Bound.refused, Bound.below, Bool.or_eq_false_iff, decide_eq_false_iff_not, not_lt] at h
      obtain ⟨⟨hzero, horder⟩, hlength⟩ := h
      have hi' : ((i.toNat : ℕ) : ℤ) = i := Int.toNat_of_nonneg hzero
      have hj' : ((j.toNat : ℕ) : ℤ) = j := Int.toNat_of_nonneg (hzero.trans horder)
      exact ⟨i.toNat, j.toNat, by rw [hi, hi'], by rw [hj, hj'], by omega, by omega⟩

theorem answers_outside (hstart : start.isNaN = false) (hfinish : finish.isNaN = false)
    (h : ¬∃ a b, Within s.length start finish a b) :
    Answers "std::str" "substr" [.string s, .number start, .number finish]
      (.error (.substringRange (truncate start) (truncate finish) s.length)) := by
  have hanswer := answers_substr s start finish
  rwa [if_pos (Bool.of_not_eq_false fun hrefused => h (exists_within hstart hfinish hrefused))] at hanswer

theorem below_whole_iff {x : Float} {i : ℤ} : (Bound.ofNumber x).below (.whole i) = true ↔ Before x i := by
  unfold Bound.ofNumber Before
  cases hx : exact x with
  | nan => simp [Bound.below, truncation?_of_isNaN (isNaN_iff.mpr hx)]
  | infinite negative => simp [Bound.below, truncation?_of_infinite hx]
  | finite negative m => simp [Bound.below, truncation?_of_finite hx]

theorem whole_below_iff {x : Float} {i : ℤ} : Bound.below (.whole i) (Bound.ofNumber x) = true ↔ Beyond x i := by
  unfold Bound.ofNumber Beyond
  cases hx : exact x with
  | nan => simp [Bound.below, truncation?_of_isNaN (isNaN_iff.mpr hx)]
  | infinite negative => simp [Bound.below, truncation?_of_infinite hx]
  | finite negative m => simp [Bound.below, truncation?_of_finite hx]

theorem not_below_of_isNaN (h : start.isNaN = true ∨ finish.isNaN = true) :
    (Bound.ofNumber finish).below (Bound.ofNumber start) = false := by
  rcases h with h | h
  · rw [Bound.ofNumber_of_isNaN h]
    cases Bound.ofNumber finish <;> rfl
  · rw [Bound.ofNumber_of_isNaN h, Bound.below]

/-- With what is not a number as one bound, only the other one is checked. -/
theorem refused_iff_of_isNaN (h : start.isNaN = true ∨ finish.isNaN = true) :
    Bound.refused s.length (Bound.ofNumber start) (Bound.ofNumber finish) = true ↔
      Before start 0 ∨ Beyond finish s.length := by
  rw [Bound.refused, not_below_of_isNaN h, Bool.or_false, Bool.or_eq_true, below_whole_iff, whole_below_iff]

theorem between_of_isNaN (h : start.isNaN = true ∨ finish.isNaN = true) (chars : List Char) :
    between (Bound.ofNumber start) (Bound.ofNumber finish) chars = [] := by
  rcases h with h | h
  · rw [Bound.ofNumber_of_isNaN h, between]
    nofun
  · rw [Bound.ofNumber_of_isNaN h, between]
    nofun

theorem answers_unordered (h : start.isNaN = true ∨ finish.isNaN = true)
    (hin : ¬(Before start 0 ∨ Beyond finish s.length)) :
    Answers "std::str" "substr" [.string s, .number start, .number finish] (.ok (.string "")) := by
  have hanswer := answers_substr s start finish
  rwa [if_neg fun hrefused => hin ((refused_iff_of_isNaN h).mp hrefused), between_of_isNaN h] at hanswer

theorem answers_unordered_outside (h : start.isNaN = true ∨ finish.isNaN = true)
    (hout : Before start 0 ∨ Beyond finish s.length) :
    Answers "std::str" "substr" [.string s, .number start, .number finish]
      (.error (.substringRange (truncate start) (truncate finish) s.length)) := by
  have hanswer := answers_substr s start finish
  rwa [if_pos ((refused_iff_of_isNaN h).mpr hout)] at hanswer

end Parts

/-! ### Arrays -/

theorem Operator.item_of_truncation? {name : String} {items : List Value} {index : Float} {i : ℕ} {value : Value}
    (hi : truncation? index = some (i : ℤ)) (hvalue : items[i]? = some value) :
    item name (.array items) (.number index) = .ok value := by
  simp [item, integerPart?_eq, hi, hvalue]

theorem Operator.item_outside {name : String} {items : List Value} {index : Float}
    (h : ¬∃ i : ℕ, truncation? index = some (i : ℤ) ∧ i < items.length) :
    item name (.array items) (.number index) = .error (.indexOutOfBounds (truncate index) items.length) := by
  simp only [item, integerPart?_eq]
  cases hi : truncation? index with
  | none => rfl
  | some i =>
    have hnone : (if 0 ≤ i then items[i.toNat]? else none) = none := by
      split
      · rename_i hzero
        have hi' : truncation? index = some (i.toNat : ℤ) := by rw [hi, Int.toNat_of_nonneg hzero]
        exact List.getElem?_eq_none (not_lt.mp fun hlt => h ⟨i.toNat, hi', hlt⟩)
      · rfl
    simp only [hnone]

/-- The part of a text between two numbers and the item of an array at a number, whatever the numbers are. The part is there
exactly if both numbers, without their fractions, are in order and within the text, and the item if the number is a position of
the array; every other number is out of bounds. The one exception is what is not a number as a bound of a part: then the other
bound alone is checked, and if that one is on its side of the text, the part is empty. -/
theorem parts_and_items_in_bounds (s : String) (start finish : Float) :
    (∀ a b, Within s.length start finish a b →
      Answers "std::str" "substr" [.string s, .number start, .number finish]
        (.ok (.string (String.ofList ((s.toList.drop a).take (b - a)))))) ∧
    (start.isNaN = false → finish.isNaN = false → (¬∃ a b, Within s.length start finish a b) →
      Answers "std::str" "substr" [.string s, .number start, .number finish]
        (.error (.substringRange (truncate start) (truncate finish) s.length))) ∧
    (start.isNaN = true ∨ finish.isNaN = true →
      (Before start 0 ∨ Beyond finish s.length →
        Answers "std::str" "substr" [.string s, .number start, .number finish]
          (.error (.substringRange (truncate start) (truncate finish) s.length))) ∧
      (¬(Before start 0 ∨ Beyond finish s.length) →
        Answers "std::str" "substr" [.string s, .number start, .number finish] (.ok (.string "")))) ∧
    (∀ name items index,
      (∀ (i : ℕ) value, truncation? index = some (i : ℤ) → items[i]? = some value →
        Operator.item name (.array items) (.number index) = .ok value) ∧
      ((¬∃ i : ℕ, truncation? index = some (i : ℤ) ∧ i < items.length) →
        Operator.item name (.array items) (.number index) =
          .error (.indexOutOfBounds (truncate index) items.length))) := by
  refine ⟨fun a b => answers_within, answers_outside, fun hnan => ?_, fun name items index => ?_⟩
  · exact ⟨answers_unordered_outside hnan, answers_unordered hnan⟩
  · exact ⟨fun i value => Operator.item_of_truncation?, Operator.item_outside⟩

/-- A fraction above minus one is dropped. What is not a number bounds an empty part, and is no position of an array. -/
theorem part_from_fraction_and_from_nan :
    Within 5 (Float.ofBits 0xBFE0000000000000) (Float.ofBits 0x4004000000000000) 0 2 ∧
    Answers "std::str" "substr"
      [.string "héllo", .number (Float.ofBits 0xBFE0000000000000), .number (Float.ofBits 0x4004000000000000)]
      (.ok (.string "hé")) ∧
    (Float.ofBits 0x7FF8000000000000).isNaN = true ∧
    Answers "std::str" "substr"
      [.string "abc", .number (Float.ofBits 0x7FF8000000000000), .number (Float.ofBits 0x4000000000000000)]
      (.ok (.string "")) ∧
    Operator.item "a" (.array [.nil]) (.number (Float.ofBits 0x7FF8000000000000)) =
      .error (.indexOutOfBounds (truncate (Float.ofBits 0x7FF8000000000000)) 1) := by
  have hstart : truncation? (Float.ofBits 0xBFE0000000000000) = some ((0 : ℕ) : ℤ) :=
    (integerPart?_eq _).symm.trans (by decide +kernel)
  have hfinish : truncation? (Float.ofBits 0x4004000000000000) = some ((2 : ℕ) : ℤ) :=
    (integerPart?_eq _).symm.trans (by decide +kernel)
  have hwithin : Within 5 (Float.ofBits 0xBFE0000000000000) (Float.ofBits 0x4004000000000000) 0 2 :=
    ⟨hstart, hfinish, by decide, by decide⟩
  have hnan : exact (Float.ofBits 0x7FF8000000000000) = .nan := by decide +kernel
  have htwo : truncation? (Float.ofBits 0x4000000000000000) = some 2 :=
    (integerPart?_eq _).symm.trans (by decide +kernel)
  have hinside : ¬(Before (Float.ofBits 0x7FF8000000000000) 0 ∨ Beyond (Float.ofBits 0x4000000000000000) "abc".length) := by
    have hlength : "abc".length = 3 := by decide
    rw [← below_whole_iff, ← whole_below_iff, Bound.ofNumber_of_truncation? htwo, Bound.ofNumber, hnan, hlength]
    decide
  have hno : ¬∃ i : ℕ, truncation? (Float.ofBits 0x7FF8000000000000) = some (i : ℤ) ∧ i < [Value.nil].length := by
    rw [truncation?_of_isNaN (isNaN_iff.mpr hnan)]
    nofun
  refine ⟨hwithin, ?_, isNaN_iff.mpr hnan, ?_, ?_⟩
  · exact (parts_and_items_in_bounds "héllo" _ _).1 0 2 hwithin
  · exact ((parts_and_items_in_bounds "abc" _ _).2.2.1 (.inl (isNaN_iff.mpr hnan))).2 hinside
  · exact ((parts_and_items_in_bounds "" (Float.ofBits 0) (Float.ofBits 0)).2.2.2 "a" [.nil] _).2 hno

end Treewalk
