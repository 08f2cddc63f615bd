import Mathlib.Data.List.TakeWhile
import Treewalk.Machine.Channel
import Treewalk.Proofs.Text.Encoding
import Treewalk.Text.Blank

/-!
Lines of text and their words. Bytes are cut into lines behind each newline; no character of several bytes has a newline
among them, so that the lines of a text are texts. A text has a first word unless all of it is white space, and it is
empty when trimmed exactly in that case.
-/

namespace Treewalk

namespace Text

/-! ### Characters -/

theorem isContinuation_ne {b : UInt8} (h : isContinuation b = true) : b ≠ 0x0A := by
  rintro rfl
  exact absurd h (by decide)

theorem isSecond_ne {lead b : UInt8} (h : isSecond lead b = true) : b ≠ 0x0A :=
  isContinuation_ne (isSecond_iff.mp h).1

/-- A character is completed by the bytes that follow its first one, whatever stands behind them, and a newline is a
character of its own. -/
theorem decodeStep_eq_some {lead : UInt8} {rest after : List UInt8} {c : Char} (h : decodeStep lead rest = (some c, after)) :
    ∃ tail, rest = tail ++ after ∧ (∀ other, decodeStep lead (tail ++ other) = (some c, other)) ∧
      (lead = 0x0A → tail = []) ∧ 0x0A ∉ tail := by
  obtain ⟨tail, n, hcomplete, rfl, rfl⟩ := complete_of_decodeStep h
  refine ⟨tail, rfl, hcomplete.decodeStep, ?_, ?_⟩
  · rintro rfl
    cases hcomplete with
    | one => rfl
    | two hlead => exact absurd hlead (by decide)
    | three hlead => exact absurd hlead (by decide)
    | four hlead => exact absurd hlead (by decide)
  · cases hcomplete with
    | one => exact List.not_mem_nil
    | two _ hb => simpa using (isContinuation_ne hb).symm
    | three _ hb hc => simpa using ⟨(isSecond_ne hb).symm, (isContinuation_ne hc).symm⟩
    | four _ hb hc hd =>
      simpa using ⟨(isSecond_ne hb).symm, (isContinuation_ne hc).symm, (isContinuation_ne hd).symm⟩

/-- Bytes without a broken part are text. -/
theorem isSome_decode?_iff (bytes : List UInt8) : (decode? bytes).isSome ↔ ∀ x ∈ decode bytes, x.isSome := by
  rw [decode?, Option.isSome_map]
  induction decode bytes with
  | nil => simp
  | cons x rest ih =>
    cases x with
    | none => simp [List.mapM_cons]
    | some c =>
      have hbind : ((some c :: rest).mapM id).isSome = (rest.mapM id).isSome := by
        rw [List.mapM_cons]
        cases rest.mapM id <;> rfl
      rw [hbind, ih]
      simp

/-- A character before text makes text. -/
theorem isSome_decode?_cons {lead : UInt8} {tail other : List UInt8} {c : Char}
    (hstep : decodeStep lead (tail ++ other) = (some c, other)) (hother : (decode? other).isSome) :
    (decode? (lead :: tail ++ other)).isSome := by
  rw [isSome_decode?_iff] at hother ⊢
  rw [List.cons_append, decode, hstep]
  intro x hx
  rcases List.mem_cons.mp hx with rfl | hx
  · rfl
  · exact hother x hx

/-! ### Words -/

/-- All of the text is white space. -/
def Blank (text : String) : Prop := ∀ c ∈ text.toList, isBlank c = true

/-- The word comes first in the text, up to the next white space. -/
def StartsWith (word text : String) : Prop :=
  ∃ before after, text.toList = before ++ word.toList ++ after ∧ (∀ c ∈ before, isBlank c = true) ∧ word.toList ≠ [] ∧
    (∀ c ∈ word.toList, isBlank c = false) ∧ ∀ c ∈ after.head?, isBlank c = true

theorem dropWhile_eq_nil_iff_blank (text : String) : text.toList.dropWhile isBlank = [] ↔ Blank text :=
  List.dropWhile_eq_nil_iff

/-- White space is all that trimming takes away. -/
theorem trim_isEmpty_iff (text : String) : (trim text).isEmpty = true ↔ Blank text := by
  have hstrip : strip isBlank text.toList = [] ↔ text.toList.dropWhile isBlank = [] := by
    constructor
    · intro h
      have hall : ∀ c ∈ text.toList.dropWhile isBlank, isBlank c = true := by
        simpa [strip, List.dropWhile_eq_nil_iff] using h
      -- What is left when the front is trimmed does not begin with white space.
      cases hrest : text.toList.dropWhile isBlank with
      | nil => rfl
      | cons c rest =>
        have hfirst := List.head?_dropWhile_not isBlank text.toList
        rw [hrest] at hall hfirst
        simp [hall c List.mem_cons_self] at hfirst
    · intro h
      simp [strip, h]
  rw [← dropWhile_eq_nil_iff_blank, ← hstrip, trim, String.isEmpty_iff]
  constructor
  · intro h
    simpa using congrArg String.toList h
  · intro h
    rw [h, String.ofList_nil]

theorem firstWord?_cases (text : String) :
    firstWord? text = none ∧ Blank text ∨ ∃ word, firstWord? text = some word ∧ StartsWith word text := by
  cases hrest : text.toList.dropWhile isBlank with
  | nil => exact Or.inl ⟨by simp [firstWord?, hrest], (dropWhile_eq_nil_iff_blank text).mp hrest⟩
  | cons c rest =>
    have hfirst := List.head?_dropWhile_not isBlank text.toList
    rw [hrest] at hfirst
    have hc : isBlank c = false := by simpa using hfirst
    refine Or.inr ⟨String.ofList ((c :: rest).takeWhile fun c => !isBlank c), ?_, ?_⟩
    · simp [firstWord?, hrest, hc]
    · refine ⟨text.toList.takeWhile isBlank, (c :: rest).dropWhile fun c => !isBlank c, ?_, ?_, ?_, ?_, ?_⟩
      · rw [String.toList_ofList, List.append_assoc, List.takeWhile_append_dropWhile, ← hrest,
          List.takeWhile_append_dropWhile]
      · intro x hx
        exact List.mem_takeWhile_imp hx
      · simp [hc]
      · intro x hx
        rw [String.toList_ofList] at hx
        have hword := List.mem_takeWhile_imp hx
        simpa using hword
      · intro x hx
        have := List.head?_dropWhile_not (fun c => !isBlank c) (c :: rest)
        rw [Option.mem_def.mp hx] at this
        simpa using this

theorem not_blank_of_startsWith {word text : String} (h : StartsWith word text) : ¬Blank text := by
  obtain ⟨before, after, htext, -, hne, hword, -⟩ := h
  obtain ⟨c, rest, hcons⟩ := List.exists_cons_of_ne_nil hne
  intro hblank
  have hc := hblank c (by rw [htext, hcons]; simp)
  rw [hword c (by rw [hcons]; exact List.mem_cons_self)] at hc
  cases hc

end Text

/-! ### Lines -/

namespace Input

/-- The lines are those of the bytes: together they are all of them, none is empty, a newline stands at the end of a line
only, and at that of each but the last. -/
structure Cuts (bytes : List UInt8) (lines : List (List UInt8)) : Prop where
  whole : lines.flatten = bytes
  inner : ∀ line ∈ lines, line ≠ [] ∧ 0x0A ∉ line.dropLast
  ended : ∀ line ∈ lines.dropLast, line.getLast? = some 0x0A

/-- Puts bytes before the first of the lines. -/
def prepend (bytes : List UInt8) : List (List UInt8) → List (List UInt8)
  | [] => [bytes]
  | line :: lines => (bytes ++ line) :: lines

theorem cut_newline (rest : List UInt8) : cut (0x0A :: rest) = [0x0A] :: cut rest := by simp [cut]

theorem cut_cons {b : UInt8} (hb : b ≠ 0x0A) (rest : List UInt8) : cut (b :: rest) = prepend [b] (cut rest) := by
  rw [cut, if_neg (by simpa using hb)]
  cases cut rest <;> rfl

theorem cut_append {bytes : List UInt8} (hne : bytes ≠ []) (hb : 0x0A ∉ bytes) (rest : List UInt8) :
    cut (bytes ++ rest) = prepend bytes (cut rest) := by
  induction bytes with
  | nil => exact absurd rfl hne
  | cons b more ih =>
    rw [List.mem_cons, not_or] at hb
    obtain ⟨hfirst, hmore⟩ := hb
    rw [List.cons_append, cut_cons (Ne.symm hfirst)]
    by_cases hnil : more = []
    · rw [hnil, List.nil_append]
    · rw [ih hnil hmore]
      cases cut rest <;> rfl

theorem Cuts.newline {bytes : List UInt8} {lines : List (List UInt8)} (h : Cuts bytes lines) :
    Cuts (0x0A :: bytes) ([0x0A] :: lines) := by
  refine ⟨by simp [h.whole], fun line hline => ?_, fun line hline => ?_⟩
  · rcases List.mem_cons.mp hline with rfl | hline
    · simp
    · exact h.inner line hline
  · cases lines with
    | nil => simp at hline
    | cons next rest =>
      rcases List.mem_cons.mp hline with rfl | hline
      · rfl
      · exact h.ended line hline

theorem Cuts.byte {b : UInt8} {bytes : List UInt8} {lines : List (List UInt8)} (h : Cuts bytes lines) (hb : b ≠ 0x0A) :
    Cuts (b :: bytes) (prepend [b] lines) := by
  cases lines with
  | nil =>
    obtain rfl : [] = bytes := h.whole
    exact ⟨rfl, by simp [prepend], by simp [prepend]⟩
  | cons first rest =>
    obtain ⟨hne, hinner⟩ := h.inner first List.mem_cons_self
    obtain ⟨x, tail, rfl⟩ := List.exists_cons_of_ne_nil hne
    refine ⟨by simpa [prepend] using h.whole, fun line hline => ?_, fun line hline => ?_⟩
    · rcases List.mem_cons.mp hline with rfl | hline
      · exact ⟨by simp, by simpa using ⟨Ne.symm hb, hinner⟩⟩
      · exact h.inner line (List.mem_cons_of_mem _ hline)
    · cases rest with
      | nil => simp [prepend] at hline
      | cons next more =>
        rcases List.mem_cons.mp hline with rfl | hline
        · have := h.ended (x :: tail) (by simp)
          simpa using this
        · exact h.ended line (List.mem_cons_of_mem _ hline)

theorem cuts_cut (bytes : List UInt8) : Cuts bytes (cut bytes) := by
  induction bytes with
  | nil => exact ⟨rfl, by simp [cut], by simp [cut]⟩
  | cons b rest ih =>
    by_cases hb : b = 0x0A
    · rw [hb, cut_newline]
      exact ih.newline
    · rw [cut_cons hb]
      exact ih.byte hb

/-- The lines of a text are texts. -/
theorem isSome_decode?_of_mem_cut {bytes : List UInt8} (h : (Text.decode? bytes).isSome) :
    ∀ line ∈ cut bytes, (Text.decode? line).isSome := by
  rw [Text.isSome_decode?_iff] at h
  induction bytes using Text.decode.induct with
  | case1 => simp [cut]
  | case2 lead rest ih =>
    rw [Text.decode, List.forall_mem_cons] at h
    obtain ⟨hsome, hrest⟩ := h
    obtain ⟨c, hc⟩ := Option.isSome_iff_exists.mp hsome
    have hlines := ih hrest
    obtain ⟨tail, heq, hstep, hnewline, htail⟩ := Text.decodeStep_eq_some (Prod.ext hc rfl)
    have hempty : (Text.decode? []).isSome := by simp [Text.decode?, Text.decode]
    have halone : (Text.decode? (lead :: tail)).isSome := by
      have := Text.isSome_decode?_cons (hstep []) hempty
      rwa [List.append_nil] at this
    rw [heq]
    by_cases hlead : lead = 0x0A
    · subst hlead
      rw [hnewline rfl] at halone ⊢
      rw [List.nil_append, cut_newline, List.forall_mem_cons]
      exact ⟨halone, hlines⟩
    · rw [← List.cons_append, cut_append (List.cons_ne_nil _ _) (by simp [Ne.symm hlead, htail])]
      cases hcut : cut (Text.decodeStep lead rest).2 with
      | nil =>
        rw [prepend, List.forall_mem_singleton]
        exact halone
      | cons line lines =>
        rw [hcut, List.forall_mem_cons] at hlines
        rw [prepend, List.forall_mem_cons]
        exact ⟨Text.isSome_decode?_cons (hstep line) hlines.1, hlines.2⟩

end Input

end Treewalk
