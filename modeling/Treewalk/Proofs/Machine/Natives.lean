import Treewalk.Library.Registry
import Treewalk.Machine.Evaluation
import Treewalk.Proofs.Text.Occurrences

/-!
Calls of the functions on texts. A call of a library function with as many arguments as it takes answers what the function
makes of its arguments, and leaves the machine as it is. Splitting and replacing answer alike: the pieces of a text, joined by
what is written for the separator, are the text with each separator replaced.
-/

namespace Treewalk

/-- Called with the arguments, at any line and on any machine, the function of a library answers with the result or fails
with the fault, and the machine stays as it is. -/
def Library.Answers (path name : String) (arguments : List Value) (answer : Except NativeFault Value) : Prop :=
  ∃ f, Library.lookup? path name = some f ∧ ∀ (steps line : Nat) (m : Machine),
    perform (steps + 1) (.invoke (.native f) arguments line) m =
      match answer with
      | .ok value => .done value m
      | .error fault => .stopped (.failed ⟨line, .native fault⟩) m

namespace Library

/-- The number of arguments is checked first, and then the function has the answer. -/
theorem answers_of {path name : String} {arguments : List Value} {answer : Except NativeFault Value} {f : Native}
    (hf : lookup? path name = some f) (harity : f.arity.accepts arguments.length = true)
    (hcall : ∀ line, Run.callPrimitive f.primitive arguments line = Run.ofNative answer line) :
    Answers path name arguments answer := by
  refine ⟨f, hf, fun steps line m => ?_⟩
  show Evaluation.invocation (perform steps) (.native f) arguments line m = _
  rw [Evaluation.invocation, if_pos harity, hcall]
  cases answer with
  | ok value => rfl
  | error fault => rfl

theorem answers_split (text separator : String) :
    Answers "std::str" "split" [.string text, .string separator]
      (.ok (.array ((Text.split text separator).map .string))) :=
  answers_of rfl rfl fun _ => rfl

theorem answers_replace (text old new : String) :
    Answers "std::str" "replace" [.string text, .string old, .string new] (.ok (.string (Text.replace text old new))) :=
  answers_of rfl rfl fun _ => rfl

end Library

open Library

/-- Splitting and replacing agree. With a separator that is not empty, no piece of a text contains it, the pieces come up to
its leftmost occurrences, joined by it they are the text, and joined by any other text they are what replacing gives. The
empty text splits a text into its characters, and nothing is replaced. -/
theorem split_and_replace_agree (text : String) :
    (∀ separator : String, separator ≠ "" → ∃ pieces : List String,
      Answers "std::str" "split" [.string text, .string separator] (.ok (.array (pieces.map .string))) ∧
      pieces ≠ [] ∧
      (∀ piece ∈ pieces, ¬separator.toList <:+: piece.toList) ∧
      Text.Splits separator.toList text.toList (pieces.map String.toList) ∧
      separator.intercalate pieces = text ∧
      (∀ new : String, Answers "std::str" "replace" [.string text, .string separator, .string new]
        (.ok (.string (new.intercalate pieces)))) ∧
      Answers "std::str" "replace" [.string text, .string separator, .string separator] (.ok (.string text))) ∧
    Answers "std::str" "split" [.string text, .string ""]
      (.ok (.array (text.toList.map fun c => .string (String.ofList [c])))) ∧
    String.join (text.toList.map fun c => String.ofList [c]) = text ∧
    ∀ new : String, Answers "std::str" "replace" [.string text, .string "", .string new] (.ok (.string text)) := by
  refine ⟨fun separator hne => ⟨Text.split text separator, answers_split text separator, ?_⟩, ?_, ?_, fun new => ?_⟩
  · have hsplits := Text.splits_split text hne
    have hjoin : separator.intercalate (Text.split text separator) = text := by
      rw [← String.toList_inj, String.toList_intercalate, hsplits.intercalate_eq]
    have hreplace (new : String) : Answers "std::str" "replace" [.string text, .string separator, .string new]
        (.ok (.string (new.intercalate (Text.split text separator)))) :=
      Text.intercalate_split hne new ▸ answers_replace text separator new
    refine ⟨?_, ?_, hsplits, hjoin, hreplace, ?_⟩
    · intro hnil
      exact hsplits.ne_nil (List.map_eq_nil_iff.mpr hnil)
    · intro piece hpiece
      exact hsplits.not_infix (by simpa using hne) _ (List.mem_map_of_mem hpiece)
    · have hsame := hreplace separator
      rwa [hjoin] at hsame
  · have hanswer := answers_split text ""
    rwa [Text.split_empty, List.map_map] at hanswer
  · rw [← Text.split_empty, Text.join_split_empty]
  · have hanswer := answers_replace text "" new
    rwa [Text.replace_empty] at hanswer

/-- A separator that overlaps itself, between characters of several bytes. -/
theorem overlapping_separator_agrees :
    "aa" ≠ "" ∧ ∃ pieces : List String,
      Answers "std::str" "split" [.string "éaaaü", .string "aa"] (.ok (.array (pieces.map .string))) ∧
      "aa".intercalate pieces = "éaaaü" ∧
      Answers "std::str" "replace" [.string "éaaaü", .string "aa", .string "-"] (.ok (.string ("-".intercalate pieces))) := by
  have hne : "aa" ≠ "" := by decide
  obtain ⟨pieces, hsplit, -, -, -, hjoin, hreplace, -⟩ := (split_and_replace_agree "éaaaü").1 "aa" hne
  exact ⟨hne, pieces, hsplit, hjoin, hreplace "-"⟩

end Treewalk
