import Treewalk.Proofs.Token.Lexicon

/-!
The lexer among the places of its source. Wherever it stands, it asks only for bytes that are there, and what the grammar
reads as one stretch, it reads in one go.
-/

namespace Treewalk

namespace Lexer

/-! ### Where the lexer stands -/

/-- The lexer stands between two parts of its source. -/
structure Stands (s : Lexer) (front after : List UInt8) : Prop where
  source : s.source.toList = front ++ after
  current : s.current = front.length

/-- The lexer behind some bytes, with the line breaks among them counted. -/
def past (s : Lexer) (bytes : List UInt8) : Lexer :=
  { s with current := s.current + bytes.length, line := s.line + bytes.count newline }

theorem past_nil (s : Lexer) : s.past [] = s := rfl

theorem past_past (s : Lexer) (bytes more : List UInt8) : (s.past bytes).past more = s.past (bytes ++ more) := by
  simp only [past, List.length_append, List.count_append, Nat.add_assoc]

/-- A byte that is no line break is passed without a new line. -/
theorem past_singleton {b : UInt8} (s : Lexer) (hb : b ≠ newline) : s.past [b] = { s with current := s.current + 1 } := by
  rw [past, List.count_singleton, if_neg (by simpa using hb)]
  rfl

theorem stands_ofSource (source : List UInt8) : (ofSource source).Stands [] source :=
  ⟨rfl, rfl⟩

section Stands
variable {s : Lexer} {front bytes after : List UInt8} {b : UInt8}

theorem Stands.past (h : s.Stands front (bytes ++ after)) : (s.past bytes).Stands (front ++ bytes) after :=
  ⟨by rw [List.append_assoc]; exact h.source, by rw [List.length_append, ← h.current]; rfl⟩

theorem Stands.past_cons (h : s.Stands front (b :: after)) : (s.past [b]).Stands (front ++ [b]) after :=
  @Stands.past s front [b] after h

theorem Stands.size (h : s.Stands front after) : s.source.size = s.current + after.length := by
  rw [← Array.length_toList, h.source, List.length_append, h.current]

theorem Stands.getElem? (h : s.Stands front after) (n : Nat) : s.source[s.current + n]? = after[n]? := by
  rw [← Array.getElem?_toList, h.source, h.current, List.getElem?_append_right (Nat.le_add_right _ _),
    Nat.add_sub_cancel_left]

theorem Stands.isAtEnd (h : s.Stands front after) : s.isAtEnd = after.isEmpty := by
  rw [Lexer.isAtEnd, h.size]
  cases after with
  | nil => simp
  | cons b after => simp

/-! ### Single bytes -/

theorem Stands.advance (h : s.Stands front (b :: after)) : s.advance = some (b, { s with current := s.current + 1 }) := by
  have hbyte : s.source[s.current]? = some b := h.getElem? 0
  rw [Lexer.advance, hbyte]
  rfl

theorem Stands.advance_past (h : s.Stands front (b :: after)) (hb : b ≠ newline) : s.advance = some (b, s.past [b]) := by
  rw [h.advance, past_singleton s hb]

theorem taking_of_advance {α : Type} {s' : Lexer} (h : s.advance = some (b, s'))
    (goOn : UInt8 → (s' : Lexer) → s'.remaining < s.remaining → Option α) : s.taking goOn = goOn b s' (advance_lt h) := by
  unfold taking
  split
  case h_1 hnone => cases hnone.symm.trans h
  case h_2 hsome =>
    cases hsome.symm.trans h
    rfl

/-- Looking at the next byte cannot fail. -/
theorem Stands.peek (h : s.Stands front after) : s.peek = some (after.head?.getD 0) := by
  rw [Lexer.peek, h.isAtEnd]
  cases after with
  | nil => rfl
  | cons b after => exact h.getElem? 0

/-- Nor can looking at the byte after it. -/
theorem Stands.peekNext (h : s.Stands front after) : s.peekNext = some (after.tail.head?.getD 0) := by
  rw [Lexer.peekNext, h.size]
  rcases after with _ | ⟨b, _ | ⟨c, after⟩⟩
  · exact if_pos (Nat.le_succ _)
  · exact if_pos (Nat.le_refl _)
  · rw [if_neg (by simp only [List.length_cons]; omega)]
    exact h.getElem? 1

theorem Stands.takeIf_pos {c : Char} (h : s.Stands front (b :: after)) (hb : Char.ofUInt8 b = c) (hne : b ≠ newline) :
    s.takeIf c = some (true, s.past [b]) := by
  have hpeek : s.peek = some b := h.peek
  have hend : s.isAtEnd = false := h.isAtEnd
  rw [takeIf, hend, hpeek, h.advance_past hne]
  simp [hb]

theorem Stands.takeIf_neg {c : Char} (h : s.Stands front after) (hc : startsWith c after = false) :
    s.takeIf c = some (false, s) := by
  cases after with
  | nil =>
    have hend : s.isAtEnd = true := h.isAtEnd
    rw [takeIf, hend]
    rfl
  | cons b after =>
    have hpeek : s.peek = some b := h.peek
    have hend : s.isAtEnd = false := h.isAtEnd
    have hb : (Char.ofUInt8 b == c) = false := hc
    rw [takeIf, hend, hpeek]
    simp only [Option.bind_eq_bind, Option.bind_some, hb, Bool.false_eq_true, if_false]
    rfl

/-- A test that a zero byte fails, and the next one if there is any, fails on what `peek` gives. -/
theorem peeked_eq_false {p : UInt8 → Bool} (hafter : after.head?.any p = false) (hzero : p 0 = false) :
    p (after.head?.getD 0) = false := by
  cases after with
  | nil => exact hzero
  | cons b after => exact hafter

/-! ### Slices -/

theorem Stands.slice {start : Nat} (h : s.Stands (front ++ bytes) after) (hstart : start = front.length) :
    s.slice start s.current = some bytes := by
  have hcurrent := h.current
  have hsize := h.size
  rw [List.length_append] at hcurrent
  rw [Lexer.slice, if_pos (by omega), Array.toList_extract, h.source, List.extract_eq_take_drop, hstart,
    List.append_assoc, List.drop_left, hcurrent, Nat.add_sub_cancel_left, List.take_left]

theorem Stands.slice_after (h : s.Stands front after) : s.slice s.current s.source.size = some after := by
  have hsize := h.size
  rw [Lexer.slice, if_pos (by omega), Array.toList_extract, h.source, List.extract_eq_take_drop, hsize, h.current,
    List.drop_left, Nat.add_sub_cancel_left, List.take_length]

theorem Stands.lexeme (h : s.Stands (front ++ bytes) after) (hstart : s.start = front.length) :
    s.lexeme = some (Text.decodeLossy bytes) := by
  rw [Lexer.lexeme, h.slice hstart]
  rfl

end Stands

/-! ### Loops -/

section Loops
variable {s : Lexer} {front after : List UInt8}

theorem Stands.skipDigits {run : List UInt8} (h : s.Stands front (run ++ after)) (hrun : ∀ b ∈ run, isDigit b = true)
    (hafter : after.head?.any isDigit = false) : s.skipDigits = some (s.past run) := by
  induction run generalizing s front with
  | nil =>
    have hpeek : isDigit (after.head?.getD 0) = false := peeked_eq_false hafter (by decide)
    rw [Lexer.skipDigits, h.peek]
    simp [hpeek, past_nil]
  | cons b run ih =>
    obtain ⟨hb, hrun⟩ := List.forall_mem_cons.mp hrun
    have hne : b ≠ newline := by
      rintro rfl
      cases hb
    have hpeek : s.peek = some b := h.peek
    rw [Lexer.skipDigits, hpeek]
    simp only [Option.bind_eq_bind, Option.bind_some, hb, if_true, taking_of_advance (h.advance_past hne)]
    rw [ih h.past_cons hrun, past_past]
    rfl

/-- On the way to the quote that closes a string, the lines are counted. -/
theorem Stands.skipToQuote {content : List UInt8} (h : s.Stands front (content ++ after)) (hcontent : quote ∉ content)
    (hafter : ∀ b ∈ after.head?, b = quote) : s.skipToQuote = some (s.past content) := by
  induction content generalizing s front with
  | nil =>
    cases after with
    | nil =>
      have hend : s.isAtEnd = true := h.isAtEnd
      rw [Lexer.skipToQuote, hend]
      rfl
    | cons b after =>
      have hpeek : s.peek = some quote := by rw [h.peek, ← hafter b rfl]; rfl
      have hend : s.isAtEnd = false := h.isAtEnd
      rw [Lexer.skipToQuote, hend, hpeek]
      rfl
  | cons b content ih =>
    rw [List.mem_cons, not_or] at hcontent
    have hpeek : s.peek = some b := h.peek
    have hend : s.isAtEnd = false := h.isAtEnd
    have hb : (Char.ofUInt8 b == '"') = false := by simpa using ne_quote_iff.mpr (Ne.symm hcontent.1)
    have hpast : ({ s with current := s.current + 1, line := if b == newline then s.line + 1 else s.line } : Lexer)
        = s.past [b] := by
      by_cases hb : b = newline
      · rw [hb]
        rfl
      · rw [past_singleton s hb, if_neg (by simpa using hb)]
    rw [Lexer.skipToQuote, hend, hpeek]
    simp only [Option.bind_eq_bind, Option.bind_some, hb, Bool.false_eq_true, if_false, taking_of_advance h.advance]
    rw [hpast, ih h.past_cons hcontent.2, past_past]
    rfl

theorem Stands.skipWord {path path' : Bool} {tail : List UInt8} (h : s.Stands front (tail ++ after))
    (htail : Continues path tail path') (hends : WordEnds path' after) : s.skipWord path = some (path', s.past tail) := by
  induction htail generalizing s front with
  | @done path =>
    have hletter : isLetter (after.head?.getD 0) = false := peeked_eq_false hends.letter (by decide)
    have hcolons : (Char.ofUInt8 (after.head?.getD 0) == ':' && Char.ofUInt8 (after.tail.head?.getD 0) == ':') = false := by
      have hcolons := hends.colons
      rcases after with _ | ⟨b, _ | ⟨c, after⟩⟩
      · rfl
      · exact Bool.and_false _
      · exact hcolons
    have hbrace : (path && (Char.ofUInt8 (after.head?.getD 0) == '\x7b' || Char.ofUInt8 (after.head?.getD 0) == '\x7d')) = false := by
      cases path with
      | false => rfl
      | true =>
        have hbrace := hends.brace rfl
        cases after with
        | nil => rfl
        | cons b after => exact hbrace
    rw [Lexer.skipWord, h.peek, past_nil]
    simp only [List.nil_append, Option.bind_eq_bind, Option.bind_some, hletter, h.peekNext, hcolons, hbrace,
      Bool.false_eq_true, if_false]
    rfl
  | @letter path b bytes path' hb _ ih =>
    have hne : b ≠ newline := by
      rintro rfl
      cases hb
    have hpeek : s.peek = some b := h.peek
    rw [Lexer.skipWord, hpeek]
    simp only [Option.bind_eq_bind, Option.bind_some, hb, if_true, taking_of_advance (h.advance_past hne)]
    rw [ih h.past_cons hends, past_past]
    rfl
  | @colons path a b bytes path' ha hb _ ih =>
    rw [eq_toUInt8 ha, eq_toUInt8 hb] at h ⊢
    have hpeek : s.peek = some ':'.toUInt8 := h.peek
    have hnext : s.peekNext = some ':'.toUInt8 := h.peekNext
    have hsecond := h.past_cons
    have hletter : isLetter ':'.toUInt8 = false := rfl
    have hcolon : (Char.ofUInt8 ':'.toUInt8 == ':') = true := rfl
    rw [Lexer.skipWord, hpeek]
    simp only [Option.bind_eq_bind, Option.bind_some, hletter, hnext, hcolon, Bool.and_self, Bool.false_eq_true, if_false,
      if_true, taking_of_advance (h.advance_past (by decide)), taking_of_advance (hsecond.advance_past (by decide))]
    rw [ih hsecond.past_cons hends, past_past, past_past]
    rfl
  | @brace b bytes path' hb _ ih =>
    have hletter : isLetter b = false := by rcases hb with hb | hb <;> rw [isLetter, hb] <;> decide
    have hcolon : (Char.ofUInt8 b == ':') = false := by rcases hb with hb | hb <;> rw [hb] <;> decide
    have hbrace : (Char.ofUInt8 b == '\x7b' || Char.ofUInt8 b == '\x7d') = true := by simpa using hb
    have hne : b ≠ newline := by
      rintro rfl
      rcases hb with hb | hb <;> cases hb
    have hpeek : s.peek = some b := h.peek
    rw [Lexer.skipWord, hpeek]
    simp only [Option.bind_eq_bind, Option.bind_some, hletter, h.peekNext, hcolon, hbrace, Bool.false_eq_true, if_false,
      Bool.false_and, Bool.and_self, if_true, taking_of_advance (h.advance_past hne)]
    rw [ih h.past_cons hends, past_past]
    rfl

theorem Stands.skipLine {body : List UInt8} (h : s.Stands front (body ++ after)) (hbody : newline ∉ body)
    (hafter : ∀ b ∈ after.head?, b = newline) : s.skipLine = some (s.past body) := by
  have hpast : s.past body = { s with current := s.current + body.length } := by
    rw [Lexer.past, List.count_eq_zero_of_not_mem hbody]
    rfl
  have hfind : body.findIdx? (· == newline) = none := by
    rw [List.findIdx?_eq_none_iff]
    exact fun b hb => beq_eq_false_iff_ne.mpr fun heq => hbody (heq ▸ hb)
  rw [Lexer.skipLine, h.slice_after, hpast]
  cases after with
  | nil =>
    rw [List.append_nil] at h ⊢
    simp only [Option.bind_eq_bind, Option.bind_some, hfind, h.size]
    rfl
  | cons b after =>
    have hb : b = newline := hafter b rfl
    have hposition : (body ++ b :: after).findIdx? (· == newline) = some body.length := by
      rw [List.findIdx?_append, hfind, hb, List.findIdx?_cons, if_pos (beq_self_eq_true newline)]
      simp
    simp only [Option.bind_eq_bind, Option.bind_some, hposition]
    rfl

end Loops

/-! ### Lexemes -/

section Lexemes
variable {s : Lexer} {front after : List UInt8} {first : UInt8}

theorem Stands.readString {content : List UInt8} (h : s.Stands (front ++ [quote]) (content ++ quote :: after))
    (hstart : s.start = front.length) (hcontent : quote ∉ content) :
    s.readString = some ((s.past (content ++ [quote])).give (.string (Text.decodeLossy content))) := by
  have hclosing := h.past
  have hend : (s.past content).isAtEnd = false := hclosing.isAtEnd
  have hcurrent : (s.past (content ++ [quote])).current - 1 = (s.past content).current := by
    simp [Lexer.past]
  have hslice : (s.past (content ++ [quote])).slice (s.start + 1) (s.past content).current = some content :=
    hclosing.slice (by rw [hstart, List.length_append]; rfl)
  rw [Lexer.readString, h.skipToQuote hcontent fun b hb => (Option.some.inj hb).symm]
  simp only [Option.bind_eq_bind, Option.bind_some, hend, Bool.false_eq_true, if_false, hclosing.advance_past (by decide),
    past_past, hcurrent]
  rw [show (s.past (content ++ [quote])).start = s.start from rfl, hslice]
  rfl

theorem Stands.readString_unclosed {content : List UInt8} (h : s.Stands front content) (hcontent : quote ∉ content) :
    s.readString = some ((s.past content).refuse .unterminatedString) := by
  rw [← List.append_nil content] at h
  have hend : (s.past content).isAtEnd = true := h.past.isAtEnd
  rw [Lexer.readString, h.skipToQuote hcontent nofun]
  simp only [Option.bind_eq_bind, Option.bind_some, hend, if_true]
  rfl

theorem numberValue_numeral {whole places : List UInt8} (hwhole : ∀ b ∈ whole, isDigit b = true)
    (hplaces : ∀ b ∈ places, isDigit b = true) : numberValue (numeral whole places) = numeralValue whole places := by
  unfold numeral
  cases places with
  | nil =>
    simp only [List.isEmpty_nil, if_true]
    rw [numberValue, takeWhile_run hwhole rfl, dropWhile_run hwhole rfl]
    rfl
  | cons place places =>
    have hpoint : ('.'.toUInt8 :: place :: places).head?.any isDigit = false := rfl
    simp only [List.isEmpty_cons, Bool.false_eq_true, if_false]
    rw [numberValue, takeWhile_run hwhole hpoint, dropWhile_run hwhole hpoint]
    rfl

theorem Stands.skipFraction {places : List UInt8} (h : s.Stands front (numeral [] places ++ after))
    (hplaces : ∀ b ∈ places, isDigit b = true) (hends : NumberEnds places after) :
    s.skipFraction = some (s.past (numeral [] places)) := by
  cases places with
  | nil =>
    have hpoint : (Char.ofUInt8 (after.head?.getD 0) == '.' && isDigit (after.tail.head?.getD 0)) = false := by
      have hpoint := hends.point rfl
      rcases after with _ | ⟨b, _ | ⟨c, after⟩⟩
      · rfl
      · exact Bool.and_false _
      · exact hpoint
    have hpeek : s.peek = some (after.head?.getD 0) := h.peek
    have hnext : s.peekNext = some (after.tail.head?.getD 0) := h.peekNext
    rw [Lexer.skipFraction, hpeek, hnext]
    simp only [Option.bind_eq_bind, Option.bind_some, hpoint, Bool.false_eq_true, if_false]
    rfl
  | cons place places =>
    have hpeek : s.peek = some '.'.toUInt8 := h.peek
    have hnext : s.peekNext = some place := h.peekNext
    have hplace : isDigit place = true := hplaces place List.mem_cons_self
    have hadvance : s.advance = some ('.'.toUInt8, s.past ['.'.toUInt8]) := h.advance_past (by decide)
    have hdigits : (s.past ['.'.toUInt8]).Stands _ (place :: places ++ after) := h.past_cons
    rw [Lexer.skipFraction, hpeek, hnext]
    simp only [Option.bind_eq_bind, Option.bind_some, hplace, Bool.and_true, hadvance]
    rw [if_pos (by rfl), hdigits.skipDigits hplaces hends.digit, past_past]
    rfl

theorem Stands.readNumber {whole places : List UInt8} (h : s.Stands (front ++ [first]) (numeral whole places ++ after))
    (hstart : s.start = front.length) (hfirst : isDigit first = true) (hwhole : ∀ b ∈ whole, isDigit b = true)
    (hplaces : ∀ b ∈ places, isDigit b = true) (hends : NumberEnds places after) :
    s.readNumber = some ((s.past (numeral whole places)).give (.number (numeralValue (first :: whole) places))) := by
  have hsplit : numeral whole places = whole ++ numeral [] places := rfl
  have hnumeral := h.past
  rw [List.append_assoc] at hnumeral
  have hslice : (s.past (numeral whole places)).slice s.start (s.past (numeral whole places)).current
      = some (numeral (first :: whole) places) := hnumeral.slice hstart
  have hfraction : (numeral [] places ++ after).head?.any isDigit = false := by
    cases places with
    | nil => exact hends.digit
    | cons place places => rfl
  rw [hsplit, List.append_assoc] at h
  rw [Lexer.readNumber, h.skipDigits hwhole hfraction]
  simp only [Option.bind_eq_bind, Option.bind_some, h.past.skipFraction hplaces hends, past_past]
  rw [← hsplit, show (s.past (numeral whole places)).start = s.start from rfl, hslice, Option.bind_some,
    numberValue_numeral (List.forall_mem_cons.mpr ⟨hfirst, hwhole⟩) hplaces]
  rfl

theorem isGlue_peeked (after : List UInt8) :
    (Char.ofUInt8 (after.head?.getD 0) == '_' || isDigit (after.head?.getD 0)) = after.head?.any isGlue := by
  cases after with
  | nil => rfl
  | cons b after => rfl

theorem Stands.readWord {tail : List UInt8} {path : Bool} (h : s.Stands (front ++ [first]) (tail ++ after))
    (hstart : s.start = front.length) (htail : Continues false tail path) (hends : WordEnds path after) :
    s.readWord = some (
      if after.head?.any isGlue then (s.past tail).refuse (.gluedWord (Text.decodeLossy (first :: tail)))
      else (s.past tail).give (wordKind path (Text.decodeLossy (first :: tail)))) := by
  have hbehind := h.past
  rw [List.append_assoc] at hbehind
  have hlexeme : (s.past tail).lexeme = some (Text.decodeLossy (first :: tail)) := hbehind.lexeme hstart
  rw [Lexer.readWord, h.skipWord htail hends]
  simp only [Option.bind_eq_bind, Option.bind_some, hbehind.peek, hlexeme, isGlue_peeked, wordKind]
  split
  · rfl
  · split
    · rfl
    · cases Symbol.keyword? (Text.decodeLossy (first :: tail)) with
      | none => rfl
      | some symbol => rfl

theorem Stands.readSlash_comment {body : List UInt8} (h : s.Stands front ('/'.toUInt8 :: body ++ after))
    (hbody : newline ∉ body) (hafter : ∀ b ∈ after.head?, b = newline) :
    s.readSlash = some (none, s.past ('/'.toUInt8 :: body)) := by
  have htake : s.takeIf '/' = some (true, s.past ['/'.toUInt8]) := h.takeIf_pos rfl (by decide)
  rw [Lexer.readSlash, htake]
  simp only [Option.bind_eq_bind, Option.bind_some, if_true, h.past_cons.skipLine hbody hafter, past_past]
  rfl

theorem Stands.readSlash_mark (h : s.Stands front after) (hafter : startsWith '/' after = false) :
    s.readSlash = some (s.give (.symbol .slash)) := by
  rw [Lexer.readSlash, h.takeIf_neg hafter]
  rfl

theorem Stands.readMark_long {c : Char} {b : UInt8} (h : s.Stands front (b :: after)) (hb : Char.ofUInt8 b = c)
    (hne : b ≠ newline) (long short : Symbol) : s.readMark c long short = some ((s.past [b]).give (.symbol long)) := by
  rw [readMark, h.takeIf_pos hb hne]
  rfl

theorem Stands.readMark_short {c : Char} (h : s.Stands front after) (hafter : startsWith c after = false)
    (long short : Symbol) : s.readMark c long short = some (s.give (.symbol short)) := by
  rw [readMark, h.takeIf_neg hafter]
  rfl

end Lexemes

/-! ### Stretches -/

/-- What the lexer comes to behind a stretch. -/
def Reading.outcome (r : Reading) (s : Lexer) : Option LexError × Lexer :=
  match r with
  | .skipped => (none, s)
  | .token kind => s.give kind
  | .fault why => s.refuse why

/-- A byte that is no sign begins a number or a word, or is no part of a program. -/
theorem readFrom_of_not_sign {first : UInt8} (h : Char.ofUInt8 first ∉ signs) (s : Lexer) :
    s.readFrom first =
      if isDigit first then s.readNumber
      else if beginsWord first then s.readWord
      else some (s.refuse (.unexpected first)) := by
  unfold readFrom
  split
  case h_25 => rfl
  all_goals
    next heq =>
      rw [heq] at h
      exact absurd (by decide) h

section Marks
variable {s : Lexer} {front bytes after : List UInt8} {c d : Char} {symbol long short : Symbol}

theorem Stands.readLexeme {first : UInt8} {tail : List UInt8} (h : s.Stands front (first :: tail)) (hfirst : first ≠ newline) :
    s.readLexeme = (s.past [first]).readFrom first := by
  rw [Lexer.readLexeme, h.advance_past hfirst]
  rfl

theorem Stands.readLexeme_word {first : UInt8} {tail : List UInt8} (h : s.Stands front (first :: tail))
    (hfirst : beginsWord first = true) : s.readLexeme = (s.past [first]).readWord := by
  have hsign := not_sign_of_beginsWord hfirst
  have hne : first ≠ newline := by
    rintro rfl
    cases hfirst
  rw [h.readLexeme hne, readFrom_of_not_sign hsign, if_neg (by simp [not_isDigit_of_beginsWord hfirst]), if_pos hfirst]

theorem Stands.readLexeme_single (h : s.Stands front (Text.encode symbol.spelling ++ after))
    (hspelling : symbol.spelling.toList = [c]) (hc : c.toUInt8 ≠ newline)
    (hread : ∀ t : Lexer, t.readFrom c.toUInt8 = some (t.give (.symbol symbol))) :
    s.readLexeme = some ((s.past (Text.encode symbol.spelling)).give (.symbol symbol)) := by
  have hbytes : Text.encode symbol.spelling = [c.toUInt8] := by
    rw [encode_spelling, hspelling]
    rfl
  rw [hbytes] at h ⊢
  rw [h.readLexeme hc, hread]

theorem Stands.readLexeme_long (h : s.Stands front (Text.encode symbol.spelling ++ after))
    (hspelling : symbol.spelling.toList = [c, d]) (hc : c.toUInt8 ≠ newline)
    (hread : ∀ t : Lexer, t.readFrom c.toUInt8 = t.readMark d symbol short) (hd : Char.ofUInt8 d.toUInt8 = d)
    (hne : d.toUInt8 ≠ newline) :
    s.readLexeme = some ((s.past (Text.encode symbol.spelling)).give (.symbol symbol)) := by
  have hbytes : Text.encode symbol.spelling = [c.toUInt8, d.toUInt8] := by
    rw [encode_spelling, hspelling]
    rfl
  rw [hbytes] at h ⊢
  rw [h.readLexeme hc, hread, h.past_cons.readMark_long hd hne, past_past]
  rfl

theorem Stands.readLexeme_short (h : s.Stands front (Text.encode symbol.spelling ++ after))
    (hspelling : symbol.spelling.toList = [c]) (hc : c.toUInt8 ≠ newline)
    (hread : ∀ t : Lexer, t.readFrom c.toUInt8 = t.readMark d long symbol) (hafter : startsWith d after = false) :
    s.readLexeme = some ((s.past (Text.encode symbol.spelling)).give (.symbol symbol)) := by
  have hbytes : Text.encode symbol.spelling = [c.toUInt8] := by
    rw [encode_spelling, hspelling]
    rfl
  rw [hbytes] at h ⊢
  rw [h.readLexeme hc, hread, h.past_cons.readMark_short hafter]

theorem Stands.readLexeme_mark (h : s.Stands front (Text.encode symbol.spelling ++ after)) (hsymbol : symbol ∈ Symbol.marks)
    (hafter : ∀ c ∈ symbol.extension?, startsWith c after = false) :
    s.readLexeme = some ((s.past (Text.encode symbol.spelling)).give (.symbol symbol)) := by
  cases symbol with
  | leftParen | rightParen | leftBrace | rightBrace | leftBracket | rightBracket | comma | dot | plus | semicolon | star
  | question | colon => exact h.readLexeme_single rfl (by decide) fun _ => rfl
  | arrow | bangEqual | equalEqual | greaterEqual | lessEqual =>
    exact h.readLexeme_long rfl (by decide) (fun _ => rfl) rfl (by decide)
  | minus | bang | equal | greater | less => exact h.readLexeme_short rfl (by decide) (fun _ => rfl) (hafter _ rfl)
  | slash =>
    have hbytes : Text.encode Symbol.slash.spelling = ['/'.toUInt8] := encode_spelling _
    rw [hbytes] at h ⊢
    rw [h.readLexeme (by decide)]
    exact h.past_cons.readSlash_mark (hafter _ rfl)
  | _ => exact absurd hsymbol (by decide)

end Marks

/-- The lexer reads bytes as the grammar does, and passes over them. -/
theorem Reads.readLexeme {s : Lexer} {front bytes after : List UInt8} {r : Reading} (hreads : Reads bytes r after)
    (h : s.Stands front (bytes ++ after)) (hstart : s.start = front.length) :
    s.readLexeme = some (r.outcome (s.past bytes)) := by
  cases hreads with
  | space hb =>
    simp only [spaces, List.map_cons, List.map_nil, List.mem_cons, List.not_mem_nil, or_false] at hb
    rcases hb with rfl | rfl | rfl | rfl
    · exact h.readLexeme (by decide)
    · exact h.readLexeme (by decide)
    · exact h.readLexeme (by decide)
    · rw [Lexer.readLexeme, h.advance]
      rfl
  | comment hbody hafter =>
    rw [h.readLexeme (by decide)]
    refine (h.past_cons.readSlash_comment hbody hafter).trans ?_
    rw [past_past]
    rfl
  | mark hsymbol hafter => exact h.readLexeme_mark hsymbol hafter
  | @string content after hcontent =>
    rw [List.cons_append, List.append_assoc] at h
    rw [h.readLexeme (by decide)]
    refine (h.past_cons.readString hstart hcontent).trans ?_
    rw [past_past]
    rfl
  | number hfirst hwhole hplaces hends =>
    have hsign := not_sign_of_isDigit hfirst
    rw [h.readLexeme (by rintro rfl; cases hfirst), readFrom_of_not_sign hsign, if_pos hfirst]
    refine (h.past_cons.readNumber hstart hfirst hwhole hplaces hends).trans ?_
    rw [past_past]
    rfl
  | word hfirst htail hends hglue =>
    rw [h.readLexeme_word hfirst]
    refine (h.past_cons.readWord hstart htail hends).trans ?_
    rw [hglue, past_past]
    rfl
  | unterminated hcontent =>
    rw [List.append_nil] at h
    rw [h.readLexeme (by decide)]
    refine (h.past_cons.readString_unclosed hcontent).trans ?_
    rw [past_past]
    rfl
  | glued hfirst htail hends hglue =>
    rw [h.readLexeme_word hfirst]
    refine (h.past_cons.readWord hstart htail hends).trans ?_
    rw [hglue, past_past]
    rfl
  | unexpected hsign hdigit hword =>
    rw [h.readLexeme (by rintro rfl; exact hsign (by decide)), readFrom_of_not_sign hsign, hdigit, hword]
    rfl

end Lexer

end Treewalk
