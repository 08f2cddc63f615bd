import Mathlib.Data.List.Forall2
import Mathlib.Data.List.Pairwise
import Treewalk.Proofs.Token.Items

/-!
Where the items of a source come from. A source falls into pieces without gaps between them: spaces, comments, and the
spans of its tokens and errors. So each item has bytes of its own, what is not in a span is a space or lies in a comment,
and the line of an item counts the line breaks up to the end of its span.
-/

namespace Treewalk

/-- A part of a source, from its first byte to the one behind its last. -/
structure Span where
  start : Nat
  stop : Nat
deriving DecidableEq, Repr

namespace Span

/-- The bytes of a source that lie in the span. -/
def bytes (s : Span) (source : List UInt8) : List UInt8 :=
  (source.drop s.start).take (s.stop - s.start)

/-- The place lies in the span. -/
def Covers (s : Span) (i : Nat) : Prop := s.start ≤ i ∧ i < s.stop

/-- The span ends before the other one begins. -/
def Before (s t : Span) : Prop := s.stop ≤ t.start

/-- The span is a comment: two slashes and what follows them, up to a line break or to the end. -/
def IsComment (s : Span) (source : List UInt8) : Prop :=
  (∃ body, s.bytes source = '/'.toUInt8 :: '/'.toUInt8 :: body ∧ Lexer.newline ∉ body) ∧
    (source[s.stop]? = some Lexer.newline ∨ s.stop = source.length)

theorem length_bytes {s : Span} {source : List UInt8} (h : s.stop ≤ source.length) :
    (s.bytes source).length = s.stop - s.start := by
  rw [bytes, List.length_take, List.length_drop]
  omega

theorem bytes_between (front bytes after : List UInt8) :
    (⟨front.length, front.length + bytes.length⟩ : Span).bytes (front ++ (bytes ++ after)) = bytes := by
  rw [Span.bytes, List.drop_left, Nat.add_sub_cancel_left, List.take_left]

end Span

namespace Lexer

/-! ### Pieces -/

/-- A part of a source that is read as one stretch. -/
structure Piece where
  span : Span
  reading : Reading

/-- The pieces of a source from an offset on. -/
def pieces (offset : Nat) : List UInt8 → List Piece
  | [] => []
  | first :: rest =>
    let s := stretch first rest
    ⟨⟨offset, offset + 1 + s.more⟩, s.reading⟩ :: pieces (offset + 1 + s.more) (rest.drop s.more)
termination_by bytes => bytes.length
decreasing_by
  simp only [List.length_cons, List.length_drop]
  omega

theorem Reads.pieces {bytes after : List UInt8} {r : Reading} (h : Reads bytes r after) (offset : Nat) :
    pieces offset (bytes ++ after) =
      ⟨⟨offset, offset + bytes.length⟩, r⟩ :: pieces (offset + bytes.length) after := by
  obtain ⟨first, tail, rfl⟩ := List.exists_cons_of_ne_nil h.ne_nil
  have hoffset : offset + (first :: tail).length = offset + 1 + tail.length := by
    rw [List.length_cons]
    omega
  rw [hoffset, List.cons_append, Lexer.pieces, h.stretch]
  dsimp only
  rw [List.drop_left]

/-- The piece has bytes of the source, and these are read as it says. -/
structure Piece.Lies (p : Piece) (source : List UInt8) : Prop where
  start_lt : p.span.start < p.span.stop
  stop_le : p.span.stop ≤ source.length
  reads : Reads (p.span.bytes source) p.reading (source.drop p.span.stop)

theorem lies_of_mem_pieces (front rest : List UInt8) : ∀ p ∈ pieces front.length rest, p.Lies (front ++ rest) := by
  induction rest using source_induction generalizing front with
  | nil =>
    rw [pieces]
    exact nofun
  | reads bytes r after hreads ih =>
    intro p hp
    rw [hreads.pieces] at hp
    rcases List.mem_cons.mp hp with rfl | hp
    · have hpositive := List.length_pos_of_ne_nil hreads.ne_nil
      refine ⟨Nat.lt_add_of_pos_right hpositive, ?_, ?_⟩
      · simp only [List.length_append]
        omega
      · rw [Span.bytes_between, ← List.append_assoc, ← List.length_append, List.drop_left]
        exact hreads
    · rw [← List.length_append] at hp
      rw [← List.append_assoc]
      exact ih (front ++ bytes) p hp

variable {source : List UInt8} {span : Span}

theorem start_le_of_mem_pieces {offset : Nat} : ∀ p ∈ pieces offset source, offset ≤ p.span.start := by
  induction source using source_induction generalizing offset with
  | nil =>
    rw [pieces]
    exact nofun
  | reads bytes r after hreads ih =>
    intro p hp
    rw [hreads.pieces] at hp
    rcases List.mem_cons.mp hp with rfl | hp
    · exact Nat.le_refl offset
    · exact Nat.le_trans (Nat.le_add_right _ _) (ih p hp)

theorem pairwise_pieces (offset : Nat) (source : List UInt8) :
    (pieces offset source).Pairwise fun p q => p.span.Before q.span := by
  induction source using source_induction generalizing offset with
  | nil =>
    rw [pieces]
    exact List.Pairwise.nil
  | reads bytes r after hreads ih =>
    rw [hreads.pieces]
    exact List.pairwise_cons.mpr ⟨start_le_of_mem_pieces, ih _⟩

/-- Every place of a source lies in a piece. -/
theorem exists_piece {offset i : Nat} (hle : offset ≤ i) (hlt : i < offset + source.length) :
    ∃ p ∈ pieces offset source, p.span.Covers i := by
  induction source using source_induction generalizing offset with
  | nil => exact absurd hlt (Nat.not_lt.mpr hle)
  | reads bytes r after hreads ih =>
    rw [hreads.pieces]
    rw [List.length_append] at hlt
    by_cases hi : i < offset + bytes.length
    · exact ⟨_, List.mem_cons_self, hle, hi⟩
    · obtain ⟨p, hp, hcovers⟩ := ih (Nat.not_lt.mp hi) (by omega)
      exact ⟨p, List.mem_cons_of_mem _ hp, hcovers⟩

/-! ### Items of pieces -/

/-- What is reported of a piece. -/
def Piece.found (source : List UInt8) (p : Piece) : List (Except LexError Token) :=
  p.reading.found (p.span.bytes source) (1 + (source.take p.span.stop).count newline) p.span.start

theorem items_eq_found (front rest : List UInt8) :
    items front.length (1 + front.count newline) rest =
      (pieces front.length rest).flatMap (Piece.found (front ++ rest)) ++
        [.ok ⟨.finish, "", 1 + (front ++ rest).count newline, (front ++ rest).length⟩] := by
  induction rest using source_induction generalizing front with
  | nil =>
    rw [items, pieces, List.append_nil]
    rfl
  | reads bytes r after hreads ih =>
    have hlater := ih (front ++ bytes)
    rw [List.length_append, List.count_append, ← Nat.add_assoc, List.append_assoc] at hlater
    have hfound : Piece.found (front ++ (bytes ++ after)) ⟨⟨front.length, front.length + bytes.length⟩, r⟩
        = r.found bytes (1 + front.count newline + bytes.count newline) front.length := by
      rw [Piece.found, Span.bytes_between, ← List.append_assoc, ← List.length_append, List.take_left, List.count_append,
        Nat.add_assoc]
    rw [hreads.items, hlater, hreads.pieces, List.flatMap_cons, hfound, List.append_assoc]

/-- The piece is a token or an error. -/
def Piece.isReported (p : Piece) : Bool :=
  match p.reading with
  | .skipped => false
  | _ => true

/-- The spans of the tokens and errors among pieces. -/
def reported (ps : List Piece) : List Span :=
  (ps.filter (·.isReported)).map (·.span)

/-- The spans of the tokens and errors of a source, in their order. -/
def spans (source : List UInt8) : List Span :=
  reported (pieces 0 source)

/-- The item is what is reported of a piece with this span. -/
def Yields (source : List UInt8) (span : Span) (item : Except LexError Token) : Prop :=
  ∃ p : Piece, p.Lies source ∧ p.span = span ∧ p.found source = [item]

theorem yields_of_lies {ps : List Piece} (h : ∀ p ∈ ps, p.Lies source) :
    List.Forall₂ (Yields source) ((ps.filter (·.isReported)).map (·.span)) (ps.flatMap (Piece.found source)) := by
  induction ps with
  | nil => exact .nil
  | cons p ps ih =>
    have hlater := ih fun q hq => h q (List.mem_cons_of_mem _ hq)
    have hlies := h p List.mem_cons_self
    obtain ⟨span, reading⟩ := p
    cases reading with
    | skipped => exact hlater
    | token kind => exact .cons ⟨_, hlies, rfl, rfl⟩ hlater
    | fault why => exact .cons ⟨_, hlies, rfl, rfl⟩ hlater

/-- The items of a source are those of its spans, and then its end. -/
theorem scan_eq_yields (source : List UInt8) : ∃ items,
    Token.scan source = items ++ [.ok ⟨.finish, "", 1 + source.count newline, source.length⟩] ∧
      List.Forall₂ (Yields source) (spans source) items :=
  ⟨(pieces 0 source).flatMap (Piece.found source), (Token.scan_eq_items source).trans (items_eq_found [] source),
    yields_of_lies (lies_of_mem_pieces [] source)⟩

/-! ### What an item says of its span -/

/-- The token has the text of the span. Invalid bytes of a string are replaced there; all else is spelled by its own
bytes. -/
structure CutFrom (source : List UInt8) (span : Span) (t : Token) : Prop where
  offset : t.offset = span.start
  lexeme : t.lexeme = Text.decodeLossy (span.bytes source)
  inner : t.isFinish = false
  string : ∀ text, t.kind = .string text → ∃ content,
    span.bytes source = quote :: (content ++ [quote]) ∧ quote ∉ content ∧ text = Text.decodeLossy content
  other : (∀ text, t.kind ≠ .string text) → Text.encode t.lexeme = span.bytes source

/-- What is wrong with the bytes of the span. -/
def SeenIn (source : List UInt8) (span : Span) : LexFault → Prop
  | .unterminatedString => span.stop = source.length ∧ ∃ content, span.bytes source = quote :: content ∧ quote ∉ content
  | .gluedWord word => Text.encode word = span.bytes source ∧ source[span.stop]?.any isGlue = true
  | .unexpected b => span.bytes source = [b]

/-- The item is about the bytes of the span, and these are not empty. -/
structure ComesFrom (source : List UInt8) (span : Span) (item : Except LexError Token) : Prop where
  start_lt : span.start < span.stop
  stop_le : span.stop ≤ source.length
  token : ∀ t, item = .ok t → CutFrom source span t
  error : ∀ e, item = .error e → SeenIn source span e.fault

theorem wordKind_ne_string (path : Bool) (lexeme text : String) : wordKind path lexeme ≠ .string text := by
  unfold wordKind
  split
  · exact nofun
  · split <;> exact nofun

theorem Reads.string_bytes {bytes after : List UInt8} {text : String} (h : Reads bytes (.token (.string text)) after) :
    ∃ content, bytes = quote :: (content ++ [quote]) ∧ quote ∉ content ∧ text = Text.decodeLossy content := by
  generalize hr : Reading.token (.string text) = r at h
  cases h with
  | string hcontent =>
    cases hr
    exact ⟨_, rfl, hcontent, rfl⟩
  | word => exact absurd (Reading.token.inj hr).symm (wordKind_ne_string _ _ _)
  | mark | number | space | comment | unterminated | glued | unexpected => cases hr

/-- A token that is no string is spelled by its own bytes. -/
theorem Reads.encode_lexeme {bytes after : List UInt8} {kind : Token.Kind} (h : Reads bytes (.token kind) after)
    (hkind : ∀ text, kind ≠ .string text) : Text.encode (Text.decodeLossy bytes) = bytes := by
  generalize hr : Reading.token kind = r at h
  cases h with
  | mark => rw [Text.decodeLossy_encode]
  | string =>
    cases hr
    exact absurd rfl (hkind _)
  | number hfirst hwhole hplaces => exact encode_decodeLossy_numeral hfirst hwhole hplaces
  | word hfirst htail => exact encode_decodeLossy_word hfirst htail
  | space | comment | unterminated | glued | unexpected => cases hr

theorem seenIn_of_reads {why : LexFault} (hstop : span.stop ≤ source.length)
    (h : Reads (span.bytes source) (.fault why) (source.drop span.stop)) : SeenIn source span why := by
  generalize hbytes : span.bytes source = bytes at h
  generalize hafter : source.drop span.stop = after at h
  cases h with
  | unterminated hcontent => exact ⟨Nat.le_antisymm hstop (List.drop_eq_nil_iff.mp hafter), _, hbytes, hcontent⟩
  | glued hfirst htail _ hglue =>
    rw [← hafter, List.head?_drop] at hglue
    exact ⟨(encode_decodeLossy_word hfirst htail).trans hbytes.symm, hglue⟩
  | unexpected => exact hbytes

theorem Yields.comesFrom {item : Except LexError Token} (h : Yields source span item) : ComesFrom source span item := by
  obtain ⟨⟨span, reading⟩, hlies, rfl, hfound⟩ := h
  have hreads := hlies.reads
  cases reading with
  | skipped => cases hfound
  | token kind =>
    cases hfound
    refine ⟨hlies.start_lt, hlies.stop_le, fun t ht => ?_, nofun⟩
    cases ht
    refine ⟨rfl, rfl, beq_eq_false_iff_ne.mpr hreads.ne_finish, fun text htext => ?_, hreads.encode_lexeme⟩
    cases htext
    exact hreads.string_bytes
  | fault why =>
    cases hfound
    refine ⟨hlies.start_lt, hlies.stop_le, nofun, fun e he => ?_⟩
    cases he
    exact seenIn_of_reads hlies.stop_le hreads

/-- The line of a token or an error. -/
def lineOf : Except LexError Token → Nat
  | .ok t => t.line
  | .error e => e.line

theorem Yields.lineOf_eq {item : Except LexError Token} (h : Yields source span item) :
    lineOf item = 1 + (source.take span.stop).count newline := by
  obtain ⟨⟨span, reading⟩, -, rfl, hfound⟩ := h
  cases reading with
  | skipped => cases hfound
  | token kind =>
    cases hfound
    rfl
  | fault why =>
    cases hfound
    rfl

/-! ### What is left out -/

theorem Reads.of_skipped {bytes after : List UInt8} (h : Reads bytes .skipped after) :
    (∃ b ∈ spaces, bytes = [b]) ∨
      (∃ body, bytes = '/'.toUInt8 :: '/'.toUInt8 :: body ∧ newline ∉ body) ∧ ∀ b ∈ after.head?, b = newline := by
  cases h with
  | space hb => exact .inl ⟨_, hb, rfl⟩
  | comment hbody hafter => exact .inr ⟨⟨_, rfl, hbody⟩, hafter⟩

/-- A byte of a skipped piece is a space, or the piece is a comment. -/
theorem Piece.Lies.space_or_comment {p : Piece} (h : p.Lies source) (hp : p.reading = .skipped) {i : Nat} {b : UInt8}
    (hb : source[i]? = some b) (hcovers : p.span.Covers i) : b ∈ spaces ∨ p.span.IsComment source := by
  have hreads := h.reads
  rw [hp] at hreads
  rcases hreads.of_skipped with ⟨c, hc, hbytes⟩ | ⟨hbody, hafter⟩
  · left
    have hlength := congrArg List.length hbytes
    rw [Span.length_bytes h.stop_le, List.length_singleton] at hlength
    obtain ⟨hstart, hstop⟩ := hcovers
    have hi : i = p.span.start := by omega
    have hfirst : (p.span.bytes source)[0]? = source[p.span.start]? := by
      rw [Span.bytes, List.getElem?_take_of_lt (by omega), List.getElem?_drop, Nat.add_zero]
    rw [hbytes, ← hi, hb] at hfirst
    cases hfirst
    exact hc
  · right
    refine ⟨hbody, ?_⟩
    rw [List.head?_drop] at hafter
    rcases Nat.lt_or_eq_of_le h.stop_le with hlt | heq
    · left
      rw [List.getElem?_eq_getElem hlt]
      exact congrArg some (hafter _ (List.getElem?_eq_getElem hlt))
    · exact .inr heq

/-- The items have parts of the source to themselves, in their order, and what lies outside of these is blank. -/
structure Partition (source : List UInt8) (spans : List Span) (items : List (Except LexError Token)) : Prop where
  origins : List.Forall₂ (ComesFrom source) spans items
  ordered : spans.Pairwise Span.Before
  outside : ∀ i b, source[i]? = some b → (∀ s ∈ spans, ¬ s.Covers i) →
    b ∈ spaces ∨ ∃ c : Span, c.Covers i ∧ c.IsComment source ∧ ∀ s ∈ spans, c.Before s ∨ s.Before c

theorem ordered_spans (source : List UInt8) : (spans source).Pairwise Span.Before :=
  List.pairwise_map.mpr ((pairwise_pieces 0 source).filter _)

theorem before_or_before {p q : Piece} (hp : p ∈ pieces 0 source) (hq : q ∈ pieces 0 source) (hne : p ≠ q) :
    p.span.Before q.span ∨ q.span.Before p.span := by
  let apart (p q : Piece) : Prop := p.span.Before q.span ∨ q.span.Before p.span
  have hsymm : Std.Symm apart := ⟨fun _ _ => Or.symm⟩
  have hapart : (pieces 0 source).Pairwise apart := (pairwise_pieces 0 source).imp Or.inl
  exact hapart.forall hp hq hne

theorem outside_spans (source : List UInt8) (i : Nat) (b : UInt8) (hb : source[i]? = some b)
    (hout : ∀ s ∈ spans source, ¬ s.Covers i) :
    b ∈ spaces ∨ ∃ c : Span, c.Covers i ∧ c.IsComment source ∧ ∀ s ∈ spans source, c.Before s ∨ s.Before c := by
  obtain ⟨hi, -⟩ := List.getElem?_eq_some_iff.mp hb
  obtain ⟨p, hp, hcovers⟩ := exists_piece (Nat.zero_le i) (by omega : i < 0 + source.length)
  have hskipped : p.isReported = false := by
    rw [Bool.eq_false_iff]
    exact fun hreported => hout _ (List.mem_map_of_mem (List.mem_filter.mpr ⟨hp, hreported⟩)) hcovers
  have hreading : p.reading = .skipped := by
    unfold Piece.isReported at hskipped
    split at hskipped
    · assumption
    · cases hskipped
  refine ((lies_of_mem_pieces [] source p hp).space_or_comment hreading hb hcovers).imp_right fun hcomment => ?_
  refine ⟨p.span, hcovers, hcomment, fun s hs => ?_⟩
  obtain ⟨q, hq, rfl⟩ := List.mem_map.mp hs
  obtain ⟨hq, hreported⟩ := List.mem_filter.mp hq
  refine before_or_before hp hq ?_
  rintro rfl
  rw [hskipped] at hreported
  cases hreported

/-! ### One call after the other -/

/-- The items that the lexer has not given yet. -/
def left (s : Lexer) : List (Except LexError Token) :=
  if s.source.size < s.current then [] else items s.current s.line (s.source.toList.drop s.current)

/-- The spans of the tokens and errors that the lexer has not given yet. -/
def spansLeft (s : Lexer) : List Span :=
  reported (pieces s.current (s.source.toList.drop s.current))

/-- The lexer is on the line that its place is on. -/
def Counted (s : Lexer) : Prop :=
  s.line = 1 + (s.source.toList.take s.current).count newline

/-- A call gives the first item that is left and leaves the others. The lexer stays inside its source, or right behind
its end, and has just read the bytes of the item. -/
structure Steps (s s' : Lexer) : Prop where
  next : s.next = some (s.left.head?, s')
  left : s'.left = s.left.tail
  spansLeft : s'.spansLeft = s.spansLeft.tail
  span : ∀ span ∈ s.spansLeft.head?, span = ⟨s'.start, s'.current⟩
  counted : s.Counted → s'.Counted
  source : s'.source = s.source
  inside : s'.current ≤ s'.source.size + 1

section Steps
variable {s : Lexer} {front bytes after : List UInt8}

theorem Stands.drop (h : s.Stands front after) : s.source.toList.drop s.current = after := by
  rw [h.source, h.current, List.drop_left]

theorem Stands.left (h : s.Stands front after) : s.left = items s.current s.line after := by
  have hsize := h.size
  rw [Lexer.left, if_neg (by omega), h.drop]

theorem Stands.spansLeft (h : s.Stands front after) : s.spansLeft = reported (pieces s.current after) := by
  rw [Lexer.spansLeft, h.drop]

theorem Stands.counted_past (h : s.Stands front (bytes ++ after)) (hcounted : s.Counted) : (s.past bytes).Counted := by
  have hthere := h.past
  unfold Counted at hcounted ⊢
  rw [h.source, h.current, List.take_left] at hcounted
  rw [hthere.source, hthere.current, List.take_left, List.count_append, ← Nat.add_assoc, ← hcounted]
  rfl

theorem left_of_lt (h : s.source.size < s.current) : s.left = [] := if_pos h

theorem spansLeft_of_lt (h : s.source.size < s.current) : s.spansLeft = [] := by
  rw [spansLeft, List.drop_eq_nil_of_le (by rw [Array.length_toList]; omega), pieces]
  rfl

theorem steps_of_lt (h : s.source.size < s.current) (hinside : s.current ≤ s.source.size + 1) : Steps s s := by
  refine ⟨?_, ?_, ?_, ?_, id, rfl, hinside⟩
  · rw [next_of_lt h, left_of_lt h]
    rfl
  · rw [left_of_lt h]
    rfl
  · rw [spansLeft_of_lt h]
    rfl
  · rw [spansLeft_of_lt h]
    intro span hspan
    cases hspan

/-- At the end there is one item left. -/
theorem Stands.steps_nil (h : s.Stands front []) : Steps s { s with current := s.current + 1 } := by
  have hsize : s.source.size = s.current := h.size
  have hbehind : ({ s with current := s.current + 1 } : Lexer).source.size < s.current + 1 := by
    rw [hsize]
    exact Nat.lt_succ_self _
  have hleft : s.left = [.ok ⟨.finish, "", s.line, s.current⟩] := by rw [h.left, items]
  have hspans : s.spansLeft = [] := by
    rw [h.spansLeft, pieces]
    rfl
  have hcounted (hcounted : s.Counted) : ({ s with current := s.current + 1 } : Lexer).Counted := by
    have hlength : s.source.toList.length = s.current := hsize
    unfold Counted at hcounted ⊢
    rw [List.take_of_length_le (Nat.le_of_eq hlength)] at hcounted
    rw [hcounted, List.take_of_length_le (by rw [hlength]; exact Nat.le_succ _)]
  refine ⟨?_, ?_, ?_, ?_, hcounted, rfl, Nat.le_of_eq (by rw [hsize])⟩
  · rw [h.next_nil, hleft]
    rfl
  · rw [left_of_lt hbehind, hleft]
    rfl
  · rw [spansLeft_of_lt hbehind, hspans]
    rfl
  · rw [hspans]
    intro span hspan
    cases hspan

/-- A stretch with something to report ends a call. -/
theorem Stands.steps_found (h : s.Stands front (bytes ++ after)) {r : Reading} (hreads : Reads bytes r after)
    {item : Except LexError Token} (hfound : r.found bytes (s.line + bytes.count newline) s.current = [item])
    (hreported : Piece.isReported ⟨⟨s.current, s.current + bytes.length⟩, r⟩ = true) : Steps s (s.begun.past bytes) := by
  have hthere : (s.begun.past bytes).Stands _ after := h.begun.past
  have hsize := hthere.size
  have hleft : s.left = item :: (s.begun.past bytes).left := by
    rw [h.left, hreads.items, hfound, hthere.left]
    rfl
  have hspans : s.spansLeft = ⟨s.current, s.current + bytes.length⟩ :: (s.begun.past bytes).spansLeft := by
    rw [h.spansLeft, hreads.pieces, reported, List.filter_cons_of_pos hreported, hthere.spansLeft]
    rfl
  have hnext := hreads.next h
  rw [hfound] at hnext
  refine ⟨?_, ?_, ?_, ?_, fun hcounted => h.begun.counted_past hcounted, rfl, by omega⟩
  · rw [hnext, hleft]
    rfl
  · rw [hleft]
    rfl
  · rw [hspans]
    rfl
  · rw [hspans]
    exact fun span hspan => (Option.some.inj hspan).symm

/-- A call goes on over a stretch without anything to report. -/
theorem Stands.steps_skipped (h : s.Stands front (bytes ++ after)) (hreads : Reads bytes .skipped after) {s' : Lexer}
    (hsteps : Steps (s.begun.past bytes) s') : Steps s s' := by
  have hthere : (s.begun.past bytes).Stands _ after := h.begun.past
  have hleft : s.left = (s.begun.past bytes).left := by
    rw [h.left, hreads.items, hthere.left]
    rfl
  have hspans : s.spansLeft = (s.begun.past bytes).spansLeft := by
    rw [h.spansLeft, hreads.pieces, hthere.spansLeft]
    rfl
  obtain ⟨hnext, hlater, hspansLater, hspan, hcounted, hsource, hinside⟩ := hsteps
  refine ⟨?_, ?_, ?_, ?_, fun hs => hcounted (h.begun.counted_past hs), hsource, hinside⟩
  · rw [hleft]
    exact (hreads.next h).trans hnext
  · rw [hleft]
    exact hlater
  · rw [hspans]
    exact hspansLater
  · rw [hspans]
    exact hspan

theorem Stands.exists_steps (h : s.Stands front after) : ∃ s', Steps s s' := by
  induction after using source_induction generalizing s front with
  | nil => exact ⟨_, h.steps_nil⟩
  | reads bytes r after hreads ih =>
    cases r with
    | skipped =>
      obtain ⟨s', hsteps⟩ := ih h.begun.past
      exact ⟨s', h.steps_skipped hreads hsteps⟩
    | token kind => exact ⟨_, h.steps_found hreads rfl rfl⟩
    | fault why => exact ⟨_, h.steps_found hreads rfl rfl⟩

theorem exists_steps (h : s.current ≤ s.source.size + 1) : ∃ s', Steps s s' := by
  rcases Nat.lt_or_ge s.source.size s.current with hlt | hge
  · exact ⟨s, steps_of_lt hlt h⟩
  · have hfront : s.current = (s.source.toList.take s.current).length := by
      rw [List.length_take_of_le (by rw [Array.length_toList]; exact hge)]
    exact Stands.exists_steps ⟨(List.take_append_drop s.current s.source.toList).symm, hfront⟩

end Steps

/-- The lexer after some calls. -/
def after (source : List UInt8) : Nat → Option Lexer
  | 0 => some (ofSource source)
  | n + 1 => do
    let (_, s) ← (← after source n).next
    return s

/-- After some calls just as many items are gone. -/
theorem left_after (source : List UInt8) (n : Nat) : ∃ s, after source n = some s ∧
    s.left = (Token.scan source).drop n ∧ s.spansLeft = (spans source).drop n ∧ s.Counted ∧ s.source = source.toArray ∧
      s.current ≤ source.length + 1 := by
  induction n with
  | zero =>
    have hstands := stands_ofSource source
    exact ⟨_, rfl, hstands.left.trans (Token.scan_eq_items source).symm, hstands.spansLeft, rfl, rfl, Nat.zero_le _⟩
  | succ n ih =>
    obtain ⟨s, hs, hleft, hspans, hcounted, hsource, hcurrent⟩ := ih
    obtain ⟨s', hsteps⟩ := exists_steps (by rw [hsource]; exact hcurrent)
    refine ⟨s', ?_, ?_, ?_, hsteps.counted hcounted, hsteps.source.trans hsource, ?_⟩
    · rw [after, hs]
      simp only [Option.bind_eq_bind, Option.bind_some, hsteps.next]
      rfl
    · rw [hsteps.left, hleft, List.tail_drop]
    · rw [hsteps.spansLeft, hspans, List.tail_drop]
    · have hinside := hsteps.inside
      rw [hsteps.source, hsource] at hinside
      exact hinside

/-- Each call has a result, and that is the item which is due. -/
theorem next_after (source : List UInt8) (n : Nat) : ∃ s s', after source n = some s ∧
    s.next = some ((Token.scan source)[n]?, s') ∧ s.current ≤ source.length + 1 ∧
      ∀ span, (spans source)[n]? = some span → span = ⟨s'.start, s'.current⟩ := by
  obtain ⟨s, hs, hleft, hspans, -, hsource, hcurrent⟩ := left_after source n
  obtain ⟨s', hsteps⟩ := exists_steps (by rw [hsource]; exact hcurrent)
  have hnext := hsteps.next
  have hspan := hsteps.span
  rw [hleft, List.head?_drop] at hnext
  rw [hspans, List.head?_drop] at hspan
  exact ⟨s, s', hs, hnext, hcurrent, hspan⟩

end Lexer

/-- The lexer comes to the end of every source without asking for a byte outside of it. The items have parts of the source
to themselves, which are those that the lexer has read at each call, and all that is outside of these is blanks and
comments. The end comes last and is met once: every later call gives nothing. -/
theorem items_partition_source (source : List UInt8) : ∃ items line,
    (Lexer.ofSource source).collect = some (items ++ [.ok ⟨.finish, "", line, source.length⟩]) ∧
      Token.scan source = items ++ [.ok ⟨.finish, "", line, source.length⟩] ∧
      Lexer.Partition source (Lexer.spans source) items ∧
      ∀ n, ∃ s s', Lexer.after source n = some s ∧ s.next = some ((Token.scan source)[n]?, s') ∧
        s.current ≤ source.length + 1 ∧
        ∀ span, (Lexer.spans source)[n]? = some span → span = ⟨s'.start, s'.current⟩ := by
  obtain ⟨items, hscan, hyields⟩ := Lexer.scan_eq_yields source
  refine ⟨items, _, ?_, hscan, ⟨?_, Lexer.ordered_spans source, Lexer.outside_spans source⟩, Lexer.next_after source⟩
  · rw [Lexer.collect_ofSource, ← Token.scan_eq_items, hscan]
  · exact hyields.imp fun _ _ h => h.comesFrom

/-- An item has the line on which its span ends, and the end has the last line; an unterminated string is noticed where
the source ends. After each call the lexer is on the line of the place that it has come to. -/
theorem lines_count_newlines (source : List UInt8) :
    (∃ items,
      Token.scan source = items ++ [.ok ⟨.finish, "", 1 + source.count Lexer.newline, source.length⟩] ∧
        List.Forall₂
          (fun span item => Lexer.ComesFrom source span item ∧
            Lexer.lineOf item = 1 + (source.take span.stop).count Lexer.newline)
          (Lexer.spans source) items) ∧
      ∀ n, ∃ s, Lexer.after source n = some s ∧ s.line = 1 + (source.take s.current).count Lexer.newline := by
  refine ⟨?_, fun n => ?_⟩
  · obtain ⟨items, hscan, hyields⟩ := Lexer.scan_eq_yields source
    exact ⟨items, hscan, hyields.imp fun _ _ h => ⟨h.comesFrom, h.lineOf_eq⟩⟩
  · obtain ⟨s, hs, -, -, hcounted, hsource, -⟩ := Lexer.left_after source n
    rw [Lexer.Counted, hsource] at hcounted
    exact ⟨s, hs, hcounted⟩

/-! ### The order of tokens -/

/-- The first token stands before the second one. -/
def Token.Precedes (t u : Token) : Prop := t.offset < u.offset ∧ t.line ≤ u.line

namespace Lexer

theorem Yields.precedes {source : List UInt8} {s s' : Span} {t u : Token} (ht : Yields source s (.ok t))
    (hu : Yields source s' (.ok u)) (h : s.Before s') : t.Precedes u := by
  have hstop : s.stop ≤ s'.stop := Nat.le_trans h (Nat.le_of_lt hu.comesFrom.start_lt)
  have htaken : (source.take s.stop).Sublist (source.take s'.stop) := (List.take_prefix_take_left hstop).sublist
  constructor
  · rw [(ht.comesFrom.token t rfl).offset, (hu.comesFrom.token u rfl).offset]
    exact Nat.lt_of_lt_of_le ht.comesFrom.start_lt h
  · have hline : t.line = _ := ht.lineOf_eq
    have hline' : u.line = _ := hu.lineOf_eq
    rw [hline, hline']
    exact Nat.add_le_add_left (htaken.count_le newline) 1

theorem exists_yields {source : List UInt8} {spans : List Span} {items : List (Except LexError Token)}
    (h : List.Forall₂ (Yields source) spans items) : ∀ item ∈ items, ∃ span ∈ spans, Yields source span item := by
  induction h with
  | nil => exact nofun
  | @cons span item spans items hfirst _ ih =>
    refine List.forall_mem_cons.mpr ⟨⟨span, List.mem_cons_self, hfirst⟩, fun other hother => ?_⟩
    obtain ⟨span', hmem, hyields⟩ := ih other hother
    exact ⟨span', List.mem_cons_of_mem span hmem, hyields⟩

/-- The tokens among items that come from spans in their order. -/
theorem pairwise_good {source : List UInt8} {spans : List Span} {items : List (Except LexError Token)}
    (h : List.Forall₂ (Yields source) spans items) (hspans : spans.Pairwise Span.Before) :
    (Token.good items).Pairwise Token.Precedes := by
  induction h with
  | nil => exact .nil
  | @cons span item spans items hfirst hrest ih =>
    rw [List.pairwise_cons] at hspans
    cases item with
    | error e => exact ih hspans.2
    | ok t =>
      refine List.pairwise_cons.mpr ⟨fun u hu => ?_, ih hspans.2⟩
      obtain ⟨span', hmem, hyields⟩ := exists_yields hrest (.ok u) (Token.mem_good.mp hu)
      exact hfirst.precedes hyields (hspans.1 span' hmem)

end Lexer

/-- The tokens of a source come in their order. -/
theorem Token.pairwise_scan (source : List UInt8) : (Token.good (Token.scan source)).Pairwise Token.Precedes := by
  obtain ⟨items, hscan, hyields⟩ := Lexer.scan_eq_yields source
  rw [hscan, Token.good_append, List.pairwise_append]
  refine ⟨Lexer.pairwise_good hyields (Lexer.ordered_spans source), List.pairwise_singleton _ _, fun t ht finish hfinish => ?_⟩
  obtain ⟨span, -, hspan⟩ := Lexer.exists_yields hyields (.ok t) (Token.mem_good.mp ht)
  have horigin := hspan.comesFrom
  have hline : t.line = _ := hspan.lineOf_eq
  rw [List.mem_singleton.mp hfinish]
  constructor
  · rw [(horigin.token t rfl).offset]
    exact Nat.lt_of_lt_of_le horigin.start_lt horigin.stop_le
  · rw [hline]
    exact Nat.add_le_add_left ((List.take_sublist span.stop source).count_le Lexer.newline) 1

end Treewalk
