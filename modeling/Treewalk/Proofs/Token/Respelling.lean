import Mathlib.Data.List.TakeWhile
import Treewalk.Proofs.Token.Items

/-!
The tokens of a source written out again. Each lexeme is the longest stretch at its place whatever followed it before, as
long as a blank or nothing follows it now. So lexemes with blanks between them are the same tokens as before.
-/

namespace Treewalk

namespace Lexer

/-! ### Lexemes that stand apart -/

/-- A blank follows, or nothing. -/
def Apart (after : List UInt8) : Prop := ∀ b ∈ after.head?, b ∈ spaces

theorem apart_nil : Apart [] := nofun

theorem Apart.any {p : UInt8 → Bool} {after : List UInt8} (h : Apart after) (hp : spaces.any p = false) :
    after.head?.any p = false := by
  cases hhead : after.head? with
  | none => rfl
  | some b => exact Bool.eq_false_iff.mpr (List.any_eq_false.mp hp b (h b hhead))

theorem Apart.numberEnds {after : List UInt8} (h : Apart after) (places : List UInt8) : NumberEnds places after := by
  have hpoint : startsWith '.' after = false := h.any (by decide)
  exact ⟨h.any (by decide), fun _ => by rw [hpoint, Bool.false_and]⟩

theorem Apart.wordEnds {after : List UInt8} (h : Apart after) (path : Bool) : WordEnds path after := by
  have hcolon : startsWith ':' after = false := h.any (by decide)
  have hopen : startsWith '\x7b' after = false := h.any (by decide)
  have hclose : startsWith '\x7d' after = false := h.any (by decide)
  exact ⟨h.any (by decide), by rw [hcolon, Bool.false_and], fun _ => by rw [hopen, hclose, Bool.or_false]⟩

theorem encode_decodeLossy_string (content : List UInt8) :
    Text.encode (Text.decodeLossy (quote :: (content ++ [quote])))
      = quote :: (Text.encode (Text.decodeLossy content) ++ [quote]) := by
  have hquote : quote < 0x80 := by decide
  have hlast : Text.encode (Text.decodeLossy [quote]) = [quote] :=
    Text.encode_decodeLossy_of_ascii fun b hb => by rwa [List.mem_singleton.mp hb]
  rw [Text.encode_decodeLossy_cons hquote, Text.encode_decodeLossy_append hquote, hlast]

/-- The bytes of a token's lexeme are read as the same token if they stand apart. -/
theorem Reads.again {bytes after gap : List UInt8} {kind : Token.Kind} (h : Reads bytes (.token kind) after)
    (hgap : Apart gap) : Reads (Text.encode (Text.decodeLossy bytes)) (.token kind) gap := by
  generalize hr : Reading.token kind = r at h
  cases h with
  | mark hs =>
    rw [Text.decodeLossy_encode]
    exact .mark hs fun c hc => hgap.any (ne_extension hc)
  | @string content _ hcontent =>
    -- Replacing what is invalid in the content brings no quote into it, and there is nothing to replace the next time.
    have hquote : quote ∉ Text.encode (Text.decodeLossy content) := fun hmem =>
      hcontent (Text.mem_of_mem_encode_decodeLossy (by decide) hmem)
    have hagain : Reads _ _ gap := .string hquote
    rw [Text.decodeLossy_encode] at hagain
    rwa [encode_decodeLossy_string]
  | number hfirst hwhole hplaces =>
    rw [encode_decodeLossy_numeral hfirst hwhole hplaces]
    exact .number hfirst hwhole hplaces (hgap.numberEnds _)
  | word hfirst htail =>
    rw [encode_decodeLossy_word hfirst htail]
    exact .word hfirst htail (hgap.wordEnds _) (hgap.any (by decide))
  | space | comment | unterminated | glued | unexpected => cases hr

/-! ### Lexemes with blanks between them -/

/-- The characters that separate tokens. -/
def blanks : List Char := [' ', '\t', '\r', '\n']

/-- The text is blanks, and not empty. -/
def isGap (gap : String) : Bool :=
  !gap.toList.isEmpty && gap.toList.all blanks.contains

/-- The text has the words in their order, each with blanks behind it; only the last one may do without. -/
inductive Spaced : List String → String → Prop
  | none : Spaced [] ""
  | last {word} : Spaced [word] word
  | more {word gap words text} : isGap gap = true → Spaced words text → Spaced (word :: words) (word ++ (gap ++ text))

theorem isGap_iff {gap : String} : isGap gap = true ↔ gap.toList ≠ [] ∧ ∀ c ∈ gap.toList, c ∈ blanks := by
  simp [isGap]

theorem encode_blanks {gap : String} (h : ∀ c ∈ gap.toList, c ∈ blanks) :
    Text.encode gap = gap.toList.map Char.toUInt8 := by
  have hblank : ∀ c ∈ blanks, String.utf8EncodeChar c = [c.toUInt8] := by
    simp only [blanks, List.forall_mem_cons]
    exact ⟨rfl, rfl, rfl, rfl, nofun⟩
  have hgap : ∀ cs : List Char, (∀ c ∈ cs, c ∈ blanks) →
      cs.flatMap String.utf8EncodeChar = cs.map Char.toUInt8 := by
    intro cs hcs
    induction cs with
    | nil => rfl
    | cons c cs ih =>
      rw [List.forall_mem_cons] at hcs
      rw [List.flatMap_cons, hblank c hcs.1, ih hcs.2]
      rfl
  rw [← hgap gap.toList h, ← Text.encode_ofList, String.ofList_toList]

theorem mem_spaces_of_mem_encode {gap : String} (h : ∀ c ∈ gap.toList, c ∈ blanks) :
    ∀ b ∈ Text.encode gap, b ∈ spaces := by
  intro b hb
  rw [encode_blanks h] at hb
  obtain ⟨c, hc, rfl⟩ := List.mem_map.mp hb
  exact List.mem_map_of_mem (h c hc)

theorem apart_encode {gap : String} (hne : gap.toList ≠ []) (h : ∀ c ∈ gap.toList, c ∈ blanks) (after : List UInt8) :
    Apart (Text.encode gap ++ after) := by
  have hspaces := mem_spaces_of_mem_encode h
  rw [encode_blanks h] at hspaces ⊢
  obtain ⟨c, cs, hgap⟩ := List.exists_cons_of_ne_nil hne
  rw [hgap] at hspaces ⊢
  rintro b ⟨rfl⟩
  exact hspaces _ List.mem_cons_self

/-- Blanks move the offset and the line, and nothing is reported of them. -/
theorem items_blanks {gap : List UInt8} (h : ∀ b ∈ gap, b ∈ spaces) (offset line : Nat) (after : List UInt8) :
    items offset line (gap ++ after) = items (offset + gap.length) (line + gap.count newline) after := by
  induction gap generalizing offset line with
  | nil => rfl
  | cons b gap ih =>
    rw [List.forall_mem_cons] at h
    have hspace : Reads [b] .skipped (gap ++ after) := .space h.1
    have hitems := hspace.items offset line
    rw [ih h.2] at hitems
    have hcount : [b].count newline + gap.count newline = (b :: gap).count newline := (List.count_append ..).symm
    have hlength : offset + [b].length + gap.length = offset + (b :: gap).length := by
      simp only [List.length_cons, List.length_nil]
      omega
    rw [Nat.add_assoc line, hcount, hlength] at hitems
    exact hitems

end Lexer

/-- What is written of a token, wherever it stands. -/
def Token.shown (t : Token) : Token.Kind × String := (t.kind, t.lexeme)

/-- The lexeme of the token is read as the same token in front of blanks and at the end of a source. -/
def Token.StandsApart (t : Token) : Prop :=
  ∀ gap, Lexer.Apart gap → Lexer.Reads (Text.encode t.lexeme) (.token t.kind) gap

theorem Token.standsApart_of_mem_scan {t : Token} {source : List UInt8} (ht : .ok t ∈ Token.scan source)
    (hinner : t.isFinish = false) : t.StandsApart := by
  intro gap hgap
  rw [Token.scan_eq_items] at ht
  rcases Lexer.exists_reads 0 1 source t ht with hfinish | ⟨bytes, after, hreads, hlexeme⟩
  · exact absurd hfinish (beq_eq_false_iff_ne.mp hinner)
  · rw [hlexeme]
    exact hreads.again hgap

namespace Lexer

/-- The items are tokens without an error among them, the end being the last, and show as given. -/
structure ShowAs (items : List (Except LexError Token)) (shown : List (Token.Kind × String)) : Prop where
  errors : LexError.all items = []
  tokens : (Token.good items).map Token.shown = shown

theorem showAs_end (offset line : Nat) : ShowAs (items offset line []) [(.finish, "")] := by
  rw [items]
  exact ⟨rfl, rfl⟩

/-- A token that stands apart comes first, and then what is shown of the rest. -/
theorem showAs_cons {t : Token} {gap : List UInt8} {shown : List (Token.Kind × String)} (ht : t.StandsApart)
    (hgap : Apart gap) {offset line : Nat} (hlater : ∀ offset line, ShowAs (items offset line gap) shown) :
    ShowAs (items offset line (Text.encode t.lexeme ++ gap)) (t.shown :: shown) := by
  rw [(ht gap hgap).items]
  obtain ⟨herrors, htokens⟩ :=
    hlater (offset + (Text.encode t.lexeme).length) (line + (Text.encode t.lexeme).count newline)
  refine ⟨?_, ?_⟩
  · rw [LexError.all_append, herrors]
    rfl
  · rw [Token.good_append, List.map_append, htokens, Reading.found, Text.decodeLossy_encode]
    rfl

/-- Tokens that stand apart are read again from their lexemes with blanks between them. -/
theorem showAs_spaced {ts : List Token} {text : String} (hts : ∀ t ∈ ts, t.StandsApart)
    (h : Spaced (ts.map (·.lexeme)) text) (offset line : Nat) :
    ShowAs (items offset line (Text.encode text)) (ts.map Token.shown ++ [(.finish, "")]) := by
  generalize hwords : ts.map (·.lexeme) = words at h
  induction h generalizing ts offset line with
  | none =>
    cases List.map_eq_nil_iff.mp hwords
    have hempty : Text.encode "" = [] := Text.encode_ofList []
    rw [hempty]
    exact showAs_end offset line
  | @last word =>
    obtain ⟨t, rfl, rfl⟩ := List.map_eq_singleton_iff.mp hwords
    have hitems : ShowAs (items offset line (Text.encode t.lexeme ++ [])) _ :=
      showAs_cons (hts t List.mem_cons_self) apart_nil showAs_end
    rwa [List.append_nil] at hitems
  | @more word gap words text hgap _ ih =>
    obtain ⟨hne, hblanks⟩ := isGap_iff.mp hgap
    obtain ⟨t, ts, rfl, rfl, rfl⟩ := List.map_eq_cons_iff.mp hwords
    rw [List.forall_mem_cons] at hts
    rw [Text.encode_append, Text.encode_append]
    refine showAs_cons hts.1 (apart_encode hne hblanks _) fun offset line => ?_
    rw [items_blanks (mem_spaces_of_mem_encode hblanks)]
    exact ih hts.2 _ _ rfl

end Lexer

/-- The lexemes of a source up to its end. -/
def Token.lexemes (source : List UInt8) : List String :=
  ((Token.good (Token.scan source)).filter (!·.isFinish)).map (·.lexeme)

/-- The lexemes of a source, written with blanks between them, have no error and are the same tokens with the same
values. -/
theorem respelled_tokens_agree (source : List UInt8) (text : String) (h : Lexer.Spaced (Token.lexemes source) text) :
    LexError.all (Token.scan (Text.encode text)) = [] ∧
      (Token.good (Token.scan (Text.encode text))).map (fun t => (t.kind, t.lexeme))
        = (Token.good (Token.scan source)).map fun t => (t.kind, t.lexeme) := by
  obtain ⟨front, hscan, hfront⟩ := Lexer.items_eq_concat 0 1 source
  have hinner : ∀ t ∈ Token.good front, t.isFinish = false := fun t ht => hfront t (Token.mem_good.mp ht)
  have hgood : Token.good (Token.scan source)
      = Token.good front ++ [⟨.finish, "", 1 + source.count Lexer.newline, 0 + source.length⟩] := by
    rw [Token.scan_eq_items, hscan, Token.good_append]
    rfl
  have hlexemes : Token.lexemes source = (Token.good front).map (·.lexeme) := by
    have hkept : (Token.good front).filter (!·.isFinish) = Token.good front :=
      List.filter_eq_self.mpr fun t ht => by rw [hinner t ht]; rfl
    rw [Token.lexemes, hgood, List.filter_append, hkept, List.filter_cons_of_neg (by simp [Token.isFinish]),
      List.filter_nil, List.append_nil]
  have hapart : ∀ t ∈ Token.good front, t.StandsApart := fun t ht => by
    have hmem : .ok t ∈ Token.scan source := by
      rw [Token.scan_eq_items, hscan]
      exact List.mem_append_left _ (Token.mem_good.mp ht)
    exact Token.standsApart_of_mem_scan hmem (hinner t ht)
  rw [hlexemes] at h
  obtain ⟨herrors, htokens⟩ := Lexer.showAs_spaced hapart h 0 1
  rw [Token.scan_eq_items (Text.encode text)]
  refine ⟨herrors, htokens.trans ?_⟩
  rw [hgood, List.map_append]
  rfl

namespace Crowded

/-- Tokens without a blank wherever they can do without, and a string with a byte that is no text. -/
def source : List UInt8 := Text.encode "iffy-->a: :b::\x7bc\x7d/\"" ++ [0xFF, Lexer.quote]

/-- The lexemes of the source, with a blank of each kind among them. -/
def text : String :=
  "iffy" ++ (" " ++ ("-" ++ ("\t" ++ ("->" ++ ("\r\n" ++ ("a" ++ (" " ++ (":" ++ (" " ++ (":" ++ (" "
    ++ ("b::\x7bc\x7d" ++ ("\n" ++ ("/" ++ ("  " ++ "\"\uFFFD\"")))))))))))))))

theorem lexemes_source :
    Token.lexemes source = ["iffy", "-", "->", "a", ":", ":", "b::\x7bc\x7d", "/", "\"\uFFFD\""] := by
  rw [Token.lexemes, Token.scan_eq_items]
  decide +kernel

theorem spaced_text : Lexer.Spaced (Token.lexemes source) text := by
  rw [lexemes_source]
  iterate 8 refine .more (by decide) ?_
  exact .last

end Crowded

theorem crowded_tokens_respelled :
    Lexer.Spaced (Token.lexemes Crowded.source) Crowded.text ∧
      LexError.all (Token.scan (Text.encode Crowded.text)) = [] ∧
      (Token.good (Token.scan (Text.encode Crowded.text))).map (fun t => (t.kind, t.lexeme))
        = (Token.good (Token.scan Crowded.source)).map fun t => (t.kind, t.lexeme) :=
  ⟨Crowded.spaced_text, respelled_tokens_agree Crowded.source Crowded.text Crowded.spaced_text⟩

end Treewalk
