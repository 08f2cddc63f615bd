import Mathlib.Data.List.TakeWhile
import Treewalk.Proofs.Token.Items
import Treewalk.Proofs.Tree.Relabeling

/-!
Sources cut at line breaks. No token but a string goes on over a line break, and none is read differently at a line
break than at the end. So the items of two sources with a line break between them are those of the first one without
its end, and then those of the second one at a later place.
-/

namespace Treewalk

namespace Lexer

/-! ### Stretches at a line break -/

section LineBreak
variable {p q : UInt8 → Bool} (after later : List UInt8)

theorem head_append_newline (hp : p newline = false) :
    (after ++ newline :: later).head?.any p = after.head?.any p := by
  cases after with
  | nil => simpa using hp
  | cons b after => rfl

/-- What is looked for in two bytes that follow is not found across a line break. -/
theorem lookahead_append_newline (hp : p newline = false) (hq : q newline = false) :
    ((after ++ newline :: later).head?.any p && (after ++ newline :: later).tail.head?.any q)
      = (after.head?.any p && after.tail.head?.any q) := by
  match after with
  | [] => simp [hp]
  | [b] => simp [hq]
  | b :: c :: after => rfl

variable {after}

theorem NumberEnds.append_newline {places : List UInt8} (h : NumberEnds places after) :
    NumberEnds places (after ++ newline :: later) where
  digit := (head_append_newline after later (by decide)).trans h.digit
  point hplaces := (lookahead_append_newline after later (by decide) (by decide)).trans (h.point hplaces)

theorem WordEnds.append_newline {path : Bool} (h : WordEnds path after) :
    WordEnds path (after ++ newline :: later) where
  letter := (head_append_newline after later (by decide)).trans h.letter
  colons := (lookahead_append_newline after later (by decide) (by decide)).trans h.colons
  brace hpath := by
    have hleft := head_append_newline (p := (Char.ofUInt8 · == '\x7b')) after later (by decide)
    have hright := head_append_newline (p := (Char.ofUInt8 · == '\x7d')) after later (by decide)
    have hbrace := h.brace hpath
    unfold startsWith at hbrace ⊢
    rw [hleft, hright, hbrace]

/-- Bytes are read at a line break as they are at the end, unless they are a string without its end. -/
theorem Reads.append_newline {bytes : List UInt8} {r : Reading} (h : Reads bytes r after)
    (hr : r ≠ .fault .unterminatedString) : Reads bytes r (after ++ newline :: later) := by
  have hglue := head_append_newline (p := isGlue) after later (by decide)
  cases h with
  | space hb => exact .space hb
  | comment hbody hafter =>
    refine .comment hbody fun b hb => ?_
    cases after with
    | nil => exact (Option.some.inj hb).symm
    | cons c after => exact hafter b hb
  | mark hs hafter =>
    refine .mark hs fun c hc => ?_
    have hnewline : (Char.ofUInt8 newline == c) = false :=
      Bool.eq_false_iff.mpr (List.any_eq_false.mp (ne_extension hc) newline (by decide))
    exact (head_append_newline after later hnewline).trans (hafter c hc)
  | string hcontent => exact .string hcontent
  | number hfirst hwhole hplaces hends => exact .number hfirst hwhole hplaces (hends.append_newline later)
  | word hfirst htail hends hafter => exact .word hfirst htail (hends.append_newline later) (hglue.trans hafter)
  | unterminated => exact absurd rfl hr
  | glued hfirst htail hends hafter => exact .glued hfirst htail (hends.append_newline later) (hglue.trans hafter)
  | unexpected hsign hdigit hword => exact .unexpected hsign hdigit hword

end LineBreak

/-! ### Items -/

/-- No string lacks its end. -/
def Terminated (items : List (Except LexError Token)) : Prop :=
  ∀ e, .error e ∈ items → e.fault ≠ .unterminatedString

theorem items_append_newline (offset line : Nat) (source later : List UInt8)
    (h : Terminated (items offset line source)) :
    items offset line (source ++ newline :: later) =
      (items offset line source).dropLast
        ++ items (offset + source.length + 1) (line + source.count newline + 1) later := by
  induction source using source_induction generalizing offset line with
  | nil =>
    have hnewline : Reads [newline] .skipped later := .space (by decide)
    have hitems := hnewline.items offset line
    rw [items]
    exact hitems
  | reads bytes r after hreads ih =>
    rw [hreads.items] at h ⊢
    have hr : r ≠ .fault .unterminatedString := by
      rintro rfl
      exact h _ (List.mem_append_left _ (List.mem_singleton_self _)) rfl
    have hlater := ih _ _ fun e he => h e (List.mem_append_right _ he)
    obtain ⟨front, hitems, -⟩ := items_eq_concat (offset + bytes.length) (line + bytes.count newline) after
    have hne : items (offset + bytes.length) (line + bytes.count newline) after ≠ [] := by
      rw [hitems]
      exact List.append_ne_nil_of_right_ne_nil _ (List.cons_ne_nil _ _)
    rw [List.append_assoc, (hreads.append_newline later hr).items, hlater, List.dropLast_append_of_ne_nil hne,
      List.append_assoc, List.length_append, List.count_append, Nat.add_assoc offset, Nat.add_assoc line]

/-! ### Sources at a later place -/

/-- The item at its new place. -/
def relabelItem (f : Relabeling) : Except LexError Token → Except LexError Token
  | .ok t => .ok (t.relabel f)
  | .error e => .error { e with line := f.line e.line }

theorem found_shift (r : Reading) (line offset lines shift : Nat) (bytes : List UInt8) :
    r.found bytes (line + lines) (offset + shift)
      = (r.found bytes line offset).map (relabelItem (.shift 0 lines shift)) := by
  cases r with
  | skipped => rfl
  | token kind => rfl
  | fault why => rfl

theorem items_shift (offset line lines shift : Nat) (source : List UInt8) :
    items (offset + shift) (line + lines) source
      = (items offset line source).map (relabelItem (.shift 0 lines shift)) := by
  induction source using source_induction generalizing offset line with
  | nil =>
    rw [items, items]
    rfl
  | reads bytes r after hreads ih =>
    rw [hreads.items, hreads.items, List.map_append, Nat.add_right_comm line lines, Nat.add_right_comm offset shift,
      found_shift, ih]

end Lexer

theorem Token.good_map_relabelItem (f : Relabeling) (items : List (Except LexError Token)) :
    Token.good (items.map (Lexer.relabelItem f)) = (Token.good items).map (·.relabel f) := by
  induction items with
  | nil => rfl
  | cons x rest ih =>
    cases x with
    | ok t => exact congrArg (t.relabel f :: ·) ih
    | error e => exact ih

theorem LexError.all_map_relabelItem (f : Relabeling) (items : List (Except LexError Token)) :
    LexError.all (items.map (Lexer.relabelItem f))
      = (LexError.all items).map fun e => { e with line := f.line e.line } := by
  induction items with
  | nil => rfl
  | cons x rest ih =>
    cases x with
    | ok t => exact ih
    | error e => exact congrArg (_ :: ·) ih

/-- The items of two sources with a line break between them: the end of the first one is gone, and the second one stands
at later lines and offsets. -/
theorem Token.scan_append_newline {first : List UInt8} (second : List UInt8)
    (h : Lexer.Terminated (Token.scan first)) :
    Token.scan (first ++ Lexer.newline :: second) = (Token.scan first).dropLast ++
      (Token.scan second).map (Lexer.relabelItem (.shift 0 (first.count Lexer.newline + 1) (first.length + 1))) := by
  have hshift := Lexer.items_shift 0 1 (first.count Lexer.newline + 1) (first.length + 1) second
  rw [← Nat.add_assoc, ← Nat.add_assoc] at hshift
  rw [Token.scan_eq_items] at h
  simp only [Token.scan_eq_items]
  rw [Lexer.items_append_newline 0 1 first second h, hshift]

/-! ### Two sources as one -/

namespace Lexer

/-- The item so many lines and bytes further on. -/
def moveItem (lines bytes : Nat) : Except LexError Token → Except LexError Token
  | .ok t => .ok { t with line := t.line + lines, offset := t.offset + bytes }
  | .error e => .error { e with line := e.line + lines }

theorem relabelItem_shift (lines bytes : Nat) : relabelItem (.shift 0 lines bytes) = moveItem lines bytes := by
  funext item
  cases item with
  | ok t => rfl
  | error e => rfl

end Lexer

/-- For all bytes in which no string is reported as unterminated, and all others: the items of both with a line break
between them are those of the first ones up to their end, and then those of the others, as many bytes and lines further on
as there are before them. -/
theorem line_break_joins_items (first second : List UInt8)
    (h : ∀ e ∈ LexError.all (Token.scan first), e.fault.message ≠ "Unterminated string.") :
    ∃ items, Token.scan first = items ++ [.ok ⟨.finish, "", 1 + first.count Lexer.newline, first.length⟩] ∧
      Token.scan (first ++ Lexer.newline :: second) =
        items ++ (Token.scan second).map (Lexer.moveItem (1 + first.count Lexer.newline) (first.length + 1)) := by
  have hterminated : Lexer.Terminated (Token.scan first) := fun e he hfault =>
    h e (LexError.mem_all.mpr he) (by rw [hfault]; rfl)
  obtain ⟨items, hitems, -⟩ := Lexer.items_eq_concat 0 1 first
  rw [← Token.scan_eq_items, Nat.zero_add] at hitems
  refine ⟨items, hitems, ?_⟩
  rw [Token.scan_append_newline second hterminated, Lexer.relabelItem_shift, Nat.add_comm 1, hitems,
    List.dropLast_concat]

namespace Slashes

/-- A line with two errors that ends in a slash. -/
def above : List UInt8 := Text.encode "x_ @ /"

/-- A line that begins with a slash. -/
def below : List UInt8 := Text.encode "/ y"

theorem scan_above : Token.scan above = [.error ⟨1, .gluedWord "x"⟩, .ok ⟨.identifier, "_", 1, 1⟩,
    .error ⟨1, .unexpected 0x40⟩, .ok ⟨.symbol .slash, "/", 1, 5⟩, .ok ⟨.finish, "", 1, 6⟩] := by
  decide +kernel

theorem scan_below : Token.scan below = [.ok ⟨.symbol .slash, "/", 1, 0⟩, .ok ⟨.identifier, "y", 1, 2⟩,
    .ok ⟨.finish, "", 1, 3⟩] := by
  decide +kernel

end Slashes

/-- Two slashes with a line break between them begin no comment, whatever was wrong before them. -/
theorem slashes_on_two_lines :
    (∀ e ∈ LexError.all (Token.scan Slashes.above), e.fault.message ≠ "Unterminated string.") ∧
      Token.scan (Slashes.above ++ Lexer.newline :: Slashes.below) =
        [.error ⟨1, .gluedWord "x"⟩, .ok ⟨.identifier, "_", 1, 1⟩, .error ⟨1, .unexpected 0x40⟩,
          .ok ⟨.symbol .slash, "/", 1, 5⟩, .ok ⟨.symbol .slash, "/", 2, 7⟩, .ok ⟨.identifier, "y", 2, 9⟩,
          .ok ⟨.finish, "", 2, 10⟩] := by
  have hmessages : ∀ e ∈ LexError.all (Token.scan Slashes.above), e.fault.message ≠ "Unterminated string." := by
    rw [Slashes.scan_above]
    decide +kernel
  obtain ⟨items, hfirst, hboth⟩ := line_break_joins_items Slashes.above Slashes.below hmessages
  have hitems : (Token.scan Slashes.above).dropLast = items := by rw [hfirst, List.dropLast_concat]
  have hlines : Slashes.above.count Lexer.newline = 0 := by decide +kernel
  have hbytes : Slashes.above.length = 6 := by decide +kernel
  refine ⟨hmessages, ?_⟩
  rw [hboth, ← hitems, Slashes.scan_above, Slashes.scan_below, hlines, hbytes]
  rfl

end Treewalk
