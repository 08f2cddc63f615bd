import Treewalk.Proofs.Text.Encoding
import Treewalk.Token.Lexer

/-!
The lexical grammar: which bytes are a blank, a comment, a token or an error, and what may stand behind them. Each
stretch is as long as it can be, and every source begins with one.
-/

namespace Treewalk

/-- The character that a mark must not have behind it: with it the two are one longer mark, or begin a comment. -/
def Symbol.extension? : Symbol → Option Char
  | minus => some '>'
  | bang | equal | greater | less => some '='
  | slash => some '/'
  | _ => none

namespace Lexer

/-! ### The grammar -/

/-- What a stretch of bytes is. -/
inductive Reading where
  | skipped
  | token (kind : Token.Kind)
  | fault (fault : LexFault)
deriving DecidableEq, Repr

/-- The byte at the front is the given character. -/
def startsWith (c : Char) (bytes : List UInt8) : Bool :=
  bytes.head?.any fun b => Char.ofUInt8 b == c

/-- The bytes that separate tokens. -/
def spaces : List UInt8 :=
  [' ', '\t', '\r', '\n'].map Char.toUInt8

def quote : UInt8 := '"'.toUInt8

/-- The byte begins a word. -/
def beginsWord (b : UInt8) : Bool :=
  isLetter b || Char.ofUInt8 b == '_'

/-- The byte must not stand directly behind a word. -/
def isGlue (b : UInt8) : Bool :=
  Char.ofUInt8 b == '_' || isDigit b

/-- The characters other than digits and those of words that begin a blank, a comment or a token. -/
def signs : List Char :=
  ['(', ')', '\x7b', '\x7d', '[', ']', ',', '.', '+', ';', '*', '?', ':', '-', '!', '=', '<', '>', ' ', '\r', '\t', '\n',
    '/', '"']

/-- The digits of a number, with a point if there are decimal places. -/
def numeral (whole places : List UInt8) : List UInt8 :=
  whole ++ if places.isEmpty then [] else '.'.toUInt8 :: places

/-- The double that a number denotes. -/
def numeralValue (whole places : List UInt8) : Float :=
  Number.Decimal.toFloat ⟨digitsValue (digitsValue 0 whole) places, -places.length⟩

/-- A digit does not follow, nor a point with a digit behind it if there are no decimal places yet. -/
structure NumberEnds (places after : List UInt8) : Prop where
  digit : after.head?.any isDigit = false
  point : places = [] → (startsWith '.' after && after.tail.head?.any isDigit) = false

/-- The bytes go on with a word: letters, double colons, and braces behind the first of these. The flags say whether the
word is a path before these bytes and behind them. -/
inductive Continues : Bool → List UInt8 → Bool → Prop
  | done {path} : Continues path [] path
  | letter {path b bytes path'} : isLetter b = true → Continues path bytes path' → Continues path (b :: bytes) path'
  | colons {path a b bytes path'} : Char.ofUInt8 a = ':' → Char.ofUInt8 b = ':' → Continues true bytes path' →
      Continues path (a :: b :: bytes) path'
  | brace {b bytes path'} : Char.ofUInt8 b = '\x7b' ∨ Char.ofUInt8 b = '\x7d' → Continues true bytes path' →
      Continues true (b :: bytes) path'

/-- Nothing follows that a word goes on with. -/
structure WordEnds (path : Bool) (after : List UInt8) : Prop where
  letter : after.head?.any isLetter = false
  colons : (startsWith ':' after && startsWith ':' after.tail) = false
  brace : path = true → (startsWith '\x7b' after || startsWith '\x7d' after) = false

/-- What a word is that does not stick to its neighbour. -/
def wordKind (path : Bool) (lexeme : String) : Token.Kind :=
  if path then .path lexeme
  else
    match Symbol.keyword? lexeme with
    | some s => .symbol s
    | none => .identifier

/-- How bytes are read that have others behind them. -/
inductive Reads : List UInt8 → Reading → List UInt8 → Prop
  | space {b after} : b ∈ spaces → Reads [b] .skipped after
  | comment {body after} : newline ∉ body → (∀ b ∈ after.head?, b = newline) →
      Reads ('/'.toUInt8 :: '/'.toUInt8 :: body) .skipped after
  | mark {s after} : s ∈ Symbol.marks → (∀ c ∈ s.extension?, startsWith c after = false) →
      Reads (Text.encode s.spelling) (.token (.symbol s)) after
  | string {content after} : quote ∉ content →
      Reads (quote :: (content ++ [quote])) (.token (.string (Text.decodeLossy content))) after
  | number {first whole places after} : isDigit first = true → (∀ b ∈ whole, isDigit b = true) →
      (∀ b ∈ places, isDigit b = true) → NumberEnds places after →
      Reads (first :: numeral whole places) (.token (.number (numeralValue (first :: whole) places))) after
  | word {first tail path after} : beginsWord first = true → Continues false tail path → WordEnds path after →
      after.head?.any isGlue = false →
      Reads (first :: tail) (.token (wordKind path (Text.decodeLossy (first :: tail)))) after
  | unterminated {content} : quote ∉ content → Reads (quote :: content) (.fault .unterminatedString) []
  | glued {first tail path after} : beginsWord first = true → Continues false tail path → WordEnds path after →
      after.head?.any isGlue = true →
      Reads (first :: tail) (.fault (.gluedWord (Text.decodeLossy (first :: tail)))) after
  | unexpected {b after} : Char.ofUInt8 b ∉ signs → isDigit b = false → beginsWord b = false →
      Reads [b] (.fault (.unexpected b)) after

/-! ### Bytes as characters -/

theorem toUInt8_ofUInt8 (b : UInt8) : (Char.ofUInt8 b).toUInt8 = b := UInt8.toUInt8_toUInt32 b

theorem eq_toUInt8 {b : UInt8} {c : Char} (h : Char.ofUInt8 b = c) : b = c.toUInt8 := by
  rw [← h, toUInt8_ofUInt8]

theorem isDigit_iff {b : UInt8} : isDigit b = true ↔ 48 ≤ b.toNat ∧ b.toNat ≤ 57 := by
  have hval : (Char.ofUInt8 b).val.toNat = b.toNat := UInt8.toNat_toUInt32 b
  simp [isDigit, Char.isDigit, UInt32.le_iff_toNat_le, hval]

theorem isLetter_iff {b : UInt8} :
    isLetter b = true ↔ 65 ≤ b.toNat ∧ b.toNat ≤ 90 ∨ 97 ≤ b.toNat ∧ b.toNat ≤ 122 := by
  have hval : (Char.ofUInt8 b).val.toNat = b.toNat := UInt8.toNat_toUInt32 b
  have hletter : isLetter b = (decide ((Char.ofUInt8 b).val ≥ 65 ∧ (Char.ofUInt8 b).val ≤ 90) ||
      (decide ((Char.ofUInt8 b).val ≥ 97) && decide ((Char.ofUInt8 b).val ≤ 122))) := rfl
  simp [hletter, UInt32.le_iff_toNat_le, hval]

theorem ascii_of_isDigit {b : UInt8} (h : isDigit b = true) : b < 0x80 := by
  rw [isDigit_iff] at h
  rw [Text.ascii_iff]
  omega

theorem ascii_of_isLetter {b : UInt8} (h : isLetter b = true) : b < 0x80 := by
  rw [isLetter_iff] at h
  rw [Text.ascii_iff]
  omega

theorem beginsWord_iff {b : UInt8} : beginsWord b = true ↔ isLetter b = true ∨ b = '_'.toUInt8 := by
  rw [beginsWord, Bool.or_eq_true, beq_iff_eq]
  exact or_congr Iff.rfl ⟨eq_toUInt8, fun h => by rw [h]; rfl⟩

theorem not_isDigit_of_beginsWord {b : UInt8} (h : beginsWord b = true) : isDigit b = false := by
  rw [Bool.eq_false_iff, ne_eq, isDigit_iff]
  rcases beginsWord_iff.mp h with h | rfl
  · rw [isLetter_iff] at h
    omega
  · decide

theorem ne_extension {s : Symbol} {c : Char} (hc : c ∈ s.extension?) : spaces.any (Char.ofUInt8 · == c) = false := by
  cases s <;> cases hc <;> rfl

/-! ### Runs of bytes -/

section Runs
variable {p : UInt8 → Bool}

theorem exists_run (p : UInt8 → Bool) (bytes : List UInt8) :
    ∃ run after, bytes = run ++ after ∧ (∀ b ∈ run, p b = true) ∧ after.head?.any p = false := by
  refine ⟨bytes.takeWhile p, bytes.dropWhile p, List.takeWhile_append_dropWhile.symm, ?_, ?_⟩
  · exact List.all_eq_true.mp List.all_takeWhile
  · have hhead := List.head?_dropWhile_not p bytes
    cases hafter : (bytes.dropWhile p).head? with
    | none => rfl
    | some b =>
      rw [hafter] at hhead
      exact hhead

theorem takeWhile_run {run after : List UInt8} (hrun : ∀ b ∈ run, p b = true) (hafter : after.head?.any p = false) :
    (run ++ after).takeWhile p = run := by
  rw [List.takeWhile_append_of_pos hrun]
  cases after with
  | nil => exact List.append_nil run
  | cons b after => rw [List.takeWhile_cons_of_neg (by simpa using hafter), List.append_nil]

theorem dropWhile_run {run after : List UInt8} (hrun : ∀ b ∈ run, p b = true) (hafter : after.head?.any p = false) :
    (run ++ after).dropWhile p = after := by
  rw [List.dropWhile_append_of_pos hrun]
  cases after with
  | nil => rfl
  | cons b after => exact List.dropWhile_cons_of_neg (by simpa using hafter)

end Runs

/-! ### Comments and strings -/

theorem exists_comment (rest : List UInt8) :
    ∃ body after, rest = body ++ after ∧ newline ∉ body ∧ ∀ b ∈ after.head?, b = newline := by
  obtain ⟨body, after, rfl, hbody, hafter⟩ := exists_run (· != newline) rest
  refine ⟨body, after, rfl, fun h => absurd (hbody _ h) (by decide), fun b hb => ?_⟩
  rw [hb] at hafter
  simpa using hafter

/-- The bytes that a string goes on over. -/
theorem ne_quote_iff {b : UInt8} : (Char.ofUInt8 b != '"') = true ↔ b ≠ quote := by
  rw [bne_iff_ne]
  exact not_congr ⟨eq_toUInt8, fun h => by rw [h]; rfl⟩

theorem exists_string (rest : List UInt8) :
    (∃ content after, rest = content ++ quote :: after ∧ quote ∉ content) ∨ quote ∉ rest := by
  by_cases h : quote ∈ rest
  · exact Or.inl (List.eq_append_cons_of_mem h)
  · exact Or.inr h

/-! ### Numbers -/

theorem exists_places (rest : List UInt8) (hrest : rest.head?.any isDigit = false) :
    NumberEnds [] rest ∨ ∃ places after, rest = '.'.toUInt8 :: (places ++ after) ∧ places ≠ [] ∧
      (∀ b ∈ places, isDigit b = true) ∧ NumberEnds places after := by
  by_cases hpoint : (startsWith '.' rest && rest.tail.head?.any isDigit) = true
  · cases rest with
    | nil => cases hpoint
    | cons point rest =>
      rw [Bool.and_eq_true] at hpoint
      obtain ⟨places, after, rfl, hplaces, hafter⟩ := exists_run isDigit rest
      have hne : places ≠ [] := by
        rintro rfl
        rw [List.nil_append] at hpoint
        exact Bool.false_ne_true (hafter.symm.trans hpoint.2)
      refine Or.inr ⟨places, after, ?_, hne, hplaces, hafter, fun heq => absurd heq hne⟩
      rw [eq_toUInt8 (show Char.ofUInt8 point = '.' from eq_of_beq hpoint.1)]
  · exact Or.inl ⟨hrest, fun _ => Bool.eq_false_iff.mpr hpoint⟩

/-! ### Words -/

/-- A word goes on as far as it can. -/
theorem exists_word (path : Bool) (rest : List UInt8) :
    ∃ tail path' after, rest = tail ++ after ∧ Continues path tail path' ∧ WordEnds path' after := by
  match rest with
  | [] => exact ⟨[], path, [], rfl, .done, rfl, rfl, fun _ => rfl⟩
  | b :: rest =>
    by_cases hletter : isLetter b = true
    · obtain ⟨tail, path', after, hrest, htail, hends⟩ := exists_word path rest
      exact ⟨b :: tail, path', after, by rw [hrest, List.cons_append], .letter hletter htail, hends⟩
    by_cases hcolons : (startsWith ':' (b :: rest) && startsWith ':' rest) = true
    · rw [Bool.and_eq_true] at hcolons
      cases rest with
      | nil => cases hcolons.2
      | cons c rest =>
        obtain ⟨tail, path', after, hrest, htail, hends⟩ := exists_word true rest
        exact ⟨b :: c :: tail, path', after, by rw [hrest, List.cons_append, List.cons_append],
          .colons (eq_of_beq hcolons.1) (eq_of_beq hcolons.2) htail, hends⟩
    by_cases hbrace : path = true ∧ (startsWith '\x7b' (b :: rest) || startsWith '\x7d' (b :: rest)) = true
    · obtain ⟨rfl, hbrace⟩ := hbrace
      obtain ⟨tail, path', after, hrest, htail, hends⟩ := exists_word true rest
      rw [Bool.or_eq_true] at hbrace
      exact ⟨b :: tail, path', after, by rw [hrest, List.cons_append], .brace (hbrace.imp eq_of_beq eq_of_beq) htail, hends⟩
    · exact ⟨[], path, b :: rest, rfl, .done, by simpa using hletter, Bool.eq_false_iff.mpr hcolons,
        fun hpath => Bool.eq_false_iff.mpr fun h => hbrace ⟨hpath, h⟩⟩
termination_by rest.length
decreasing_by all_goals simp only [List.length_cons]; omega

/-! ### Stretches -/

theorem encode_spelling (s : Symbol) : Text.encode s.spelling = s.spelling.toList.map Char.toUInt8 := by
  cases s <;> exact Text.encode_ofList _

theorem not_sign_of_isDigit {b : UInt8} (h : isDigit b = true) : Char.ofUInt8 b ∉ signs := by
  have hsigns : signs.any Char.isDigit = false := by decide
  exact fun hb => List.any_eq_false.mp hsigns _ hb h

theorem not_sign_of_beginsWord {b : UInt8} (h : beginsWord b = true) : Char.ofUInt8 b ∉ signs := by
  have hsigns : signs.any (fun c => c.isAlpha || c == '_') = false := by decide
  exact fun hb => List.any_eq_false.mp hsigns _ hb h

/-- What a sign begins: a space, a string, or a mark. -/
theorem signs_begin : signs.all (fun c => spaces.contains c.toUInt8 || c == '"' ||
    Symbol.marks.any fun s => s.spelling.toList == [c]) = true := by decide +kernel

/-- What a mark may be extended to: the slash to a comment, any other one to a mark that goes no further. -/
theorem marks_extend : Symbol.marks.all (fun s => s.extension?.all fun d => s == .slash ||
    Symbol.marks.any fun long => long.spelling.toList == s.spelling.toList ++ [d] && long.extension?.isNone) = true := by
  decide +kernel

/-- The bytes begin with a stretch. -/
def Begins (bytes : List UInt8) : Prop :=
  ∃ front r after, bytes = front ++ after ∧ Reads front r after

theorem begins_mark {s : Symbol} {c : Char} {rest : List UInt8} (hs : s ∈ Symbol.marks) (hspelling : s.spelling.toList = [c]) :
    Begins (c.toUInt8 :: rest) := by
  have hfront : Text.encode s.spelling = [c.toUInt8] := by
    rw [encode_spelling, hspelling]
    rfl
  by_cases hshort : ∀ d ∈ s.extension?, startsWith d rest = false
  · exact ⟨_, _, rest, by rw [hfront, List.singleton_append], .mark hs hshort⟩
  · simp only [Classical.not_forall, Bool.not_eq_false] at hshort
    obtain ⟨d, hd, hstarts⟩ := hshort
    cases rest with
    | nil => cases hstarts
    | cons b rest =>
      rw [eq_toUInt8 (show Char.ofUInt8 b = d from eq_of_beq hstarts)]
      have hlong := List.all_eq_true.mp marks_extend s hs
      rw [Option.mem_def.mp hd, Option.all_some, Bool.or_eq_true, beq_iff_eq, List.any_eq_true] at hlong
      rcases hlong with rfl | ⟨long, hmem, hlong⟩
      · obtain ⟨body, after, rfl, hbody, hafter⟩ := exists_comment rest
        cases hd
        cases hspelling
        exact ⟨_, _, after, rfl, .comment hbody hafter⟩
      · rw [Bool.and_eq_true, beq_iff_eq, hspelling, Option.isNone_iff_eq_none] at hlong
        refine ⟨_, _, rest, ?_, .mark hmem (by rw [hlong.2]; exact nofun)⟩
        rw [encode_spelling, hlong.1]
        rfl

theorem begins_number {first : UInt8} (hfirst : isDigit first = true) (rest : List UInt8) : Begins (first :: rest) := by
  obtain ⟨whole, behind, rfl, hwhole, hbehind⟩ := exists_run isDigit rest
  obtain ⟨places, after, heq, hplaces, hends⟩ : ∃ places after, whole ++ behind = numeral whole places ++ after ∧
      (∀ b ∈ places, isDigit b = true) ∧ NumberEnds places after := by
    rcases exists_places behind hbehind with hends | ⟨places, after, rfl, hne, hplaces, hends⟩
    · exact ⟨[], behind, by simp [numeral], nofun, hends⟩
    · exact ⟨places, after, by simp [numeral, hne], hplaces, hends⟩
  exact ⟨_, _, after, by rw [heq, List.cons_append], .number hfirst hwhole hplaces hends⟩

theorem begins_word {first : UInt8} (hfirst : beginsWord first = true) (rest : List UInt8) : Begins (first :: rest) := by
  obtain ⟨tail, path, after, rfl, htail, hends⟩ := exists_word false rest
  cases hglue : after.head?.any isGlue with
  | true => exact ⟨first :: tail, _, after, rfl, .glued hfirst htail hends hglue⟩
  | false => exact ⟨first :: tail, _, after, rfl, .word hfirst htail hends hglue⟩

/-- Every byte begins a stretch. -/
theorem begins_cons (first : UInt8) (rest : List UInt8) : Begins (first :: rest) := by
  by_cases hsign : Char.ofUInt8 first ∈ signs
  · have hkind := List.all_eq_true.mp signs_begin _ hsign
    simp only [toUInt8_ofUInt8, Bool.or_eq_true, List.contains_iff_mem, beq_iff_eq, List.any_eq_true] at hkind
    rcases hkind with (hspace | hquote) | ⟨s, hs, hspelling⟩
    · exact ⟨[first], _, rest, rfl, .space hspace⟩
    · rw [eq_toUInt8 hquote]
      rcases exists_string rest with ⟨content, after, rfl, hcontent⟩ | hrest
      · exact ⟨_, _, after, by simp [quote], .string hcontent⟩
      · exact ⟨_, _, [], (List.append_nil _).symm, .unterminated hrest⟩
    · rw [← toUInt8_ofUInt8 first]
      exact begins_mark hs hspelling
  · by_cases hdigit : isDigit first = true
    · exact begins_number hdigit rest
    · by_cases hword : beginsWord first = true
      · exact begins_word hword rest
      · exact ⟨[first], _, rest, rfl,
          .unexpected hsign (Bool.eq_false_iff.mpr hdigit) (Bool.eq_false_iff.mpr hword)⟩

end Lexer

end Treewalk
