import Treewalk.Proofs.Number.Doubles
import Treewalk.Proofs.Token.Items
import Treewalk.Token.Printer
import Treewalk.Tree.Printer

/-!
Texts of numbers as source. A value, a token in a listing and a constant in a tree write a number in different ways, but
each of them is a numeral: digits, and decimal places behind a point. Read as a source, it is one token with that number.
-/

namespace Treewalk

open Number

/-- Decimal digits, and decimal places if there are any. -/
structure Numeral where
  whole : List Char
  places : List Char
  whole_ne_nil : whole ≠ []
  digits : ∀ c ∈ whole ++ places, c.isDigit = true

namespace Numeral

/-- The numeral as it is written: a point stands before the decimal places. -/
def text (n : Numeral) : String :=
  String.ofList (n.whole ++ if n.places.isEmpty then [] else '.' :: n.places)

/-- The decimal that the numeral denotes. -/
def decimal (n : Numeral) : Decimal :=
  ⟨Nat.ofDigitChars 10 (n.whole ++ n.places) 0, -n.places.length⟩

/-! ### The bytes of a numeral -/

theorem isDigit_toNat {c : Char} (h : c.isDigit = true) : 48 ≤ c.toNat ∧ c.toNat ≤ 57 := by
  simpa [Char.isDigit, UInt32.le_iff_toNat_le] using h

theorem toNat_toUInt8 {c : Char} (h : c.toNat < 0x80) : c.toUInt8.toNat = c.toNat := by
  have hval : c.toUInt8.toNat = c.toNat % 256 := UInt32.toNat_toUInt8 c.val
  omega

theorem utf8EncodeChar_ascii {c : Char} (h : c.toNat < 0x80) : String.utf8EncodeChar c = [c.toUInt8] := by
  have hval : c.val.toNat ≤ 0x7F := Nat.le_of_lt_succ h
  rw [String.utf8EncodeChar, if_pos hval]
  rfl

theorem encode_ascii {cs : List Char} (h : ∀ c ∈ cs, c.toNat < 0x80) :
    Text.encode (String.ofList cs) = cs.map Char.toUInt8 := by
  rw [Text.encode_ofList]
  induction cs with
  | nil => rfl
  | cons c cs ih =>
    rw [List.flatMap_cons, List.map_cons, utf8EncodeChar_ascii (h c List.mem_cons_self),
      ih fun c hc => h c (List.mem_cons_of_mem _ hc)]
    rfl

theorem isDigit_toUInt8 {c : Char} (h : c.isDigit = true) : Lexer.isDigit c.toUInt8 = true := by
  have hc := isDigit_toNat h
  rw [Lexer.isDigit_iff, toNat_toUInt8 (by omega)]
  exact hc

theorem digitsValue_toUInt8 {cs : List Char} (h : ∀ c ∈ cs, c.isDigit = true) (front : ℕ) :
    Lexer.digitsValue front (cs.map Char.toUInt8) = Nat.ofDigitChars 10 cs front := by
  induction cs generalizing front with
  | nil => rfl
  | cons c cs ih =>
    have hc := isDigit_toNat (h c List.mem_cons_self)
    rw [Nat.ofDigitChars_cons, ← ih fun c hc => h c (List.mem_cons_of_mem _ hc), ← toNat_toUInt8 (c := c) (by omega)]
    rfl

variable (n : Numeral)

theorem digit_whole : ∀ c ∈ n.whole, c.isDigit = true := fun c hc => n.digits c (List.mem_append_left _ hc)

theorem digit_places : ∀ c ∈ n.places, c.isDigit = true := fun c hc => n.digits c (List.mem_append_right _ hc)

/-- The characters of a numeral are digits and the point. -/
theorem digit_or_point {c : Char} (hc : c ∈ n.text.toList) : c.isDigit = true ∨ c = '.' := by
  rw [text, String.toList_ofList] at hc
  rcases List.mem_append.mp hc with hc | hc
  · exact .inl (n.digit_whole c hc)
  · split at hc
    · cases hc
    · rcases List.mem_cons.mp hc with rfl | hc
      · exact .inr rfl
      · exact .inl (n.digit_places c hc)

theorem encode_text_eq_map : Text.encode n.text = n.text.toList.map Char.toUInt8 := by
  have hascii : ∀ c ∈ n.text.toList, c.toNat < 0x80 := by
    intro c hc
    rcases n.digit_or_point hc with hdigit | rfl
    · have := isDigit_toNat hdigit
      omega
    · decide
  have hbytes := encode_ascii hascii
  rwa [String.ofList_toList] at hbytes

theorem encode_text :
    Text.encode n.text = Lexer.numeral (n.whole.map Char.toUInt8) (n.places.map Char.toUInt8) := by
  rw [n.encode_text_eq_map, text, String.toList_ofList, List.map_append, Lexer.numeral, List.isEmpty_map]
  cases n.places <;> rfl

theorem numeralValue_eq :
    Lexer.numeralValue (n.whole.map Char.toUInt8) (n.places.map Char.toUInt8) = n.decimal.toFloat := by
  rw [Lexer.numeralValue, digitsValue_toUInt8 n.digit_whole, digitsValue_toUInt8 n.digit_places, decimal,
    Nat.ofDigitChars_append, List.length_map]

theorem reads : Lexer.Reads (Text.encode n.text) (.token (.number n.decimal.toFloat)) [] := by
  have hbytes {cs : List Char} (h : ∀ c ∈ cs, c.isDigit = true) : ∀ b ∈ cs.map Char.toUInt8, Lexer.isDigit b = true := by
    intro b hb
    obtain ⟨c, hc, rfl⟩ := List.mem_map.mp hb
    exact isDigit_toUInt8 (h c hc)
  obtain ⟨first, rest, hwhole⟩ := List.exists_cons_of_ne_nil n.whole_ne_nil
  have hdigits := n.digit_whole
  rw [n.encode_text, ← n.numeralValue_eq]
  rw [hwhole] at hdigits ⊢
  exact .number (isDigit_toUInt8 (hdigits first List.mem_cons_self))
    (hbytes fun c hc => hdigits c (List.mem_cons_of_mem _ hc)) (hbytes n.digit_places) ⟨rfl, fun _ => rfl⟩

theorem newline_notMem : Lexer.newline ∉ Text.encode n.text := by
  rw [n.encode_text_eq_map, List.mem_map]
  rintro ⟨c, hc, heq⟩
  rcases n.digit_or_point hc with hdigit | rfl
  · have := isDigit_toUInt8 hdigit
    rw [heq] at this
    cases this
  · cases heq

/-- A numeral is one token, and nothing stands behind it. -/
theorem scan_text :
    Token.scan (Text.encode n.text) =
      [.ok ⟨.number n.decimal.toFloat, n.text, 1, 0⟩, .ok ⟨.finish, "", 1, (Text.encode n.text).length⟩] := by
  have hitems := n.reads.items 0 1
  rw [List.append_nil, List.count_eq_zero_of_not_mem n.newline_notMem] at hitems
  rw [Token.scan_eq_items, hitems, Lexer.Reading.found, Text.decodeLossy_encode, Lexer.items, Nat.zero_add]
  rfl

/-! ### The numerals of numbers -/

/-- Digits with the last ones of them as decimal places. -/
def cut (cs : List Char) (count : ℕ) (hcount : count < cs.length) (hdigits : ∀ c ∈ cs, c.isDigit = true) : Numeral where
  whole := cs.take (cs.length - count)
  places := cs.drop (cs.length - count)
  whole_ne_nil := by
    rw [ne_eq, List.take_eq_nil_iff, not_or]
    exact ⟨by omega, List.ne_nil_of_length_pos (by omega)⟩
  digits := by rwa [List.take_append_drop]

section Cut

variable {cs : List Char} {count : ℕ} (hcount : count < cs.length) (hdigits : ∀ c ∈ cs, c.isDigit = true)

theorem decimal_cut : (cut cs count hcount hdigits).decimal = ⟨Nat.ofDigitChars 10 cs 0, -count⟩ := by
  have hlength : (cs.drop (cs.length - count)).length = count := by
    rw [List.length_drop]
    omega
  rw [decimal, cut, List.take_append_drop, hlength]

theorem text_cut_zero (hpos : 0 < cs.length) : (cut cs 0 hpos hdigits).text = String.ofList cs := by
  simp [text, cut]

theorem text_cut (hne : 0 < count) : (cut cs count hcount hdigits).text =
    String.ofList (cs.take (cs.length - count) ++ '.' :: cs.drop (cs.length - count)) := by
  have hdrop : (cs.drop (cs.length - count)).isEmpty = false := by
    rw [List.isEmpty_eq_false_iff, ne_eq, List.drop_eq_nil_iff]
    omega
  rw [text, cut, hdrop, if_neg Bool.false_ne_true]

end Cut

theorem length_toDigits_pos (k : ℕ) : 0 < (Nat.toDigits 10 k).length :=
  List.length_pos_of_ne_nil Nat.toDigits_ne_nil

theorem isDigit_toDigits (k : ℕ) : ∀ c ∈ Nat.toDigits 10 k, c.isDigit = true :=
  fun _ => Nat.isDigit_of_mem_toDigits (by decide) (by decide)

theorem isDigit_zeros (k : ℕ) : ∀ c ∈ List.replicate k '0', c.isDigit = true := by
  intro c hc
  rw [List.eq_of_mem_replicate hc]
  rfl

end Numeral

/-- The text is a numeral, and that denotes the rational number. -/
def Writes (text : String) (q : ℚ) : Prop :=
  ∃ n : Numeral, n.text = text ∧ n.decimal.toRat = q

open Numeral

theorem writes_natural (k : ℕ) : Writes (String.ofList (Nat.toDigits 10 k)) k := by
  refine ⟨cut (Nat.toDigits 10 k) 0 (length_toDigits_pos k) (isDigit_toDigits k), text_cut_zero _ _, ?_⟩
  rw [decimal_cut, Nat.ofDigitChars_ten_toDigits]
  simp [Decimal.toRat]

theorem writes_natural_point (k : ℕ) : Writes (String.ofList (Nat.toDigits 10 k) ++ ".0") k := by
  have hdigits : ∀ c ∈ Nat.toDigits 10 k ++ ['0'], c.isDigit = true :=
    List.forall_mem_append.mpr ⟨isDigit_toDigits k, isDigit_zeros 1⟩
  have hlength : (Nat.toDigits 10 k ++ ['0']).length = (Nat.toDigits 10 k).length + 1 := List.length_append
  have hpos := length_toDigits_pos k
  refine ⟨cut (Nat.toDigits 10 k ++ ['0']) 1 (by omega) hdigits, ?_, ?_⟩
  · rw [text_cut _ _ one_pos, hlength, Nat.add_sub_cancel, List.take_left, List.drop_left]
    exact String.ofList_append
  · have hvalue : Nat.ofDigitChars 10 ['0'] k = 10 * k := rfl
    rw [decimal_cut, Nat.ofDigitChars_append, Nat.ofDigitChars_ten_toDigits, hvalue, Decimal.toRat]
    push_cast
    rw [zpow_neg_one]
    field_simp

/-- A decimal is written without an exponent. -/
theorem writes_positional (d : Decimal) : Writes (positional d) d.toRat := by
  have hpos : 0 < d.digits.length := length_toDigits_pos _
  have hvalue : Nat.ofDigitChars 10 d.digits 0 = d.coefficient := Nat.ofDigitChars_ten_toDigits
  rcases le_or_gt 0 d.exponent with hexponent | hexponent
  · -- zeros behind the digits
    have hdigits : ∀ c ∈ d.digits ++ List.replicate d.exponent.toNat '0', c.isDigit = true :=
      List.forall_mem_append.mpr ⟨isDigit_toDigits _, isDigit_zeros _⟩
    refine ⟨cut _ 0 (by rw [List.length_append]; omega) hdigits, ?_, ?_⟩
    · rw [text_cut_zero, positional, if_pos hexponent]
    · have hpower : (10 : ℚ) ^ d.exponent = 10 ^ d.exponent.toNat := by
        rw [← zpow_natCast, Int.toNat_of_nonneg hexponent]
      rw [decimal_cut, Nat.ofDigitChars_append, hvalue, Nat.ofDigitChars_replicate_zero]
      simp [Decimal.toRat, hpower, mul_comm]
  · -- zeros in front of them, up to one before the point
    have hplaces : 0 < (-d.exponent).toNat := by omega
    have hdigits : ∀ c ∈ List.replicate ((-d.exponent).toNat + 1 - d.digits.length) '0' ++ d.digits, c.isDigit = true :=
      List.forall_mem_append.mpr ⟨isDigit_zeros _, isDigit_toDigits _⟩
    refine ⟨cut _ (-d.exponent).toNat (by rw [List.length_append, List.length_replicate]; omega) hdigits, ?_, ?_⟩
    · rw [text_cut _ _ hplaces, positional, if_neg hexponent.not_ge]
    · have hback : -((-d.exponent).toNat : ℤ) = d.exponent := by omega
      rw [decimal_cut, Nat.ofDigitChars_append, Nat.ofDigitChars_replicate_zero, Nat.mul_zero, hvalue, hback]

/-! ### The texts of doubles -/

/-- Read as a source, the text is one token with the number, and nothing stands behind it. -/
def Token.ReadBack (text : String) (x : Float) : Prop :=
  Token.scan (Text.encode text) =
    [.ok ⟨.number x, text, 1, 0⟩, .ok ⟨.finish, "", 1, (Text.encode text).length⟩]

/-- A source has one reading. -/
theorem Token.ReadBack.unique {text : String} {x y : Float} (hx : ReadBack text x) (hy : ReadBack text y) : x = y := by
  have hitems := hx.symm.trans hy
  simp only [List.cons.injEq, Except.ok.injEq, Token.mk.injEq, Token.Kind.number.injEq] at hitems
  exact hitems.1.1

theorem Number.integerText_natCast (k : ℕ) : integerText k = String.ofList (Nat.toDigits 10 k) := by
  simp [integerText, signText]

section Texts

variable {x : Float} {m : Magnitude} (hx : exact x = .finite false m)

include hx

/-- A text that denotes what rounds to the number is read as the number. -/
theorem Writes.readBack {text : String} {q : ℚ} (h : Writes text q) (hq : bitsOf q = bitsOf m.toRat) :
    Token.ReadBack text x := by
  obtain ⟨n, rfl, rfl⟩ := h
  have hvalue : n.decimal.toFloat = x := Decimal.toFloat_eq hx (by rw [Decimal.bits_eq, hq])
  rw [Token.ReadBack, n.scan_text, hvalue]

/-- So is a text that denotes the floor of a whole number. -/
theorem Writes.readBack_floor {text : String} (h : Writes text m.floor) (hwhole : m.isWhole = true) :
    Token.ReadBack text x := h.readBack hx (by rw [Magnitude.toRat_of_isWhole hwhole])

theorem readBack_shortestText : Token.ReadBack (shortestText x) x := by
  have hbits := m.bits_shortest .up
  rw [Decimal.bits_eq] at hbits
  have htext : shortestText x = positional (m.shortest .up) := by
    rw [shortestText, hx]
    exact String.empty_append
  rw [htext]
  exact (writes_positional _).readBack hx hbits

theorem moderateInt?_eq {i : ℤ} (h : moderateInt? x = some i) : m.isWhole = true ∧ i = m.floor := by
  unfold moderateInt? toInt? at h
  rw [hx] at h
  by_cases hwhole : m.isWhole = true
  · simp only [hwhole, if_true, Bool.false_eq_true, if_false] at h
    split at h
    · exact ⟨hwhole, (Option.some.inj h).symm⟩
    · cases h
  · simp [hwhole] at h

theorem readBack_valueText : Token.ReadBack (valueText x) x := by
  unfold valueText
  split
  · next i hi =>
    obtain ⟨hwhole, rfl⟩ := moderateInt?_eq hx hi
    rw [integerText_natCast]
    exact (writes_natural _).readBack_floor hx hwhole
  · exact readBack_shortestText hx

theorem readBack_tokenText : Token.ReadBack (tokenText x) x := by
  unfold tokenText
  split
  · next i hi =>
    obtain ⟨hwhole, rfl⟩ := moderateInt?_eq hx hi
    rw [integerText_natCast]
    exact (writes_natural_point _).readBack_floor hx hwhole
  · exact readBack_shortestText hx

theorem readBack_treeText : Token.ReadBack (treeText x) x := by
  rw [treeText, hx]
  dsimp only
  split
  · next hwhole =>
    rw [signText, if_neg Bool.false_ne_true, String.empty_append]
    exact (writes_natural_point _).readBack_floor hx hwhole
  · exact readBack_shortestText hx

end Texts

/-- The texts of a number: as a value, in a listing of tokens and in a tree. -/
def Number.renderings (x : Float) : List String :=
  [valueText x, (Token.Kind.number x).literalText, (Literal.number x).text]

theorem readBack_renderings {x : Float} (hfinite : x.isFinite = true) (hsign : x.toBits.toNat < 2 ^ 63) :
    ∀ text ∈ renderings x, Token.ReadBack text x := by
  obtain ⟨m, hx⟩ := exact_of_isFinite hfinite hsign
  have hall : ∀ text ∈ [valueText x, tokenText x, treeText x], Token.ReadBack text x := by
    simpa using ⟨readBack_valueText hx, readBack_tokenText hx, readBack_treeText hx⟩
  exact hall

/-- Every text of a finite number without a sign is read back as that number, as the only token of its source. So two such
numbers have no text in common. -/
theorem number_texts_read_back (x : Float) (hfinite : x.isFinite = true) (hsign : x.toBits.toNat < 2 ^ 63) :
    (∀ text ∈ renderings x, Token.scan (Text.encode text) =
      [.ok ⟨.number x, text, 1, 0⟩, .ok ⟨.finish, "", 1, (Text.encode text).length⟩]) ∧
    ∀ y : Float, y.isFinite = true → y.toBits.toNat < 2 ^ 63 → (∃ text ∈ renderings x, text ∈ renderings y) → x = y := by
  refine ⟨readBack_renderings hfinite hsign, ?_⟩
  rintro y hyfinite hysign ⟨text, hx, hy⟩
  exact (readBack_renderings hfinite hsign text hx).unique (readBack_renderings hyfinite hysign text hy)

/-- A power of two above all moderate integers: the fewest digits as a value, every digit in a tree. -/
theorem large_power_of_two_reads_back :
    (Float.ofBits 0x43B0000000000000).isFinite = true ∧ (Float.ofBits 0x43B0000000000000).toBits.toNat < 2 ^ 63 ∧
    renderings (Float.ofBits 0x43B0000000000000) =
      ["1152921504606847000", "1152921504606847000", "1152921504606846976.0"] ∧
    ∀ text ∈ ["1152921504606847000", "1152921504606847000", "1152921504606846976.0"],
      Token.scan (Text.encode text) = [.ok ⟨.number (Float.ofBits 0x43B0000000000000), text, 1, 0⟩,
        .ok ⟨.finish, "", 1, (Text.encode text).length⟩] := by
  have hfinite : (Float.ofBits 0x43B0000000000000).isFinite = true := by decide +kernel
  have hsign : (Float.ofBits 0x43B0000000000000).toBits.toNat < 2 ^ 63 := by decide +kernel
  have htexts : renderings (Float.ofBits 0x43B0000000000000) =
      ["1152921504606847000", "1152921504606847000", "1152921504606846976.0"] := by decide +kernel
  exact ⟨hfinite, hsign, htexts, htexts ▸ (number_texts_read_back _ hfinite hsign).1⟩

end Treewalk
