import Treewalk.Text.Utf8

/-!
Text as bytes and bytes as text. What is written is read back as it was, and a character that was read is written with
the bytes it was read from. A byte below `0x80` is a character of its own, whatever stands before or behind it, so that
bytes can be cut there.
-/

namespace Treewalk.Text

/-! ### Ranges of bytes -/

theorem within_iff {low high b : UInt8} :
    within low high b = true ↔ low.toNat ≤ b.toNat ∧ b.toNat ≤ high.toNat := by
  simp [within, UInt8.le_iff_toNat_le]

theorem isContinuation_iff {b : UInt8} : isContinuation b = true ↔ 0x80 ≤ b.toNat ∧ b.toNat ≤ 0xBF :=
  within_iff

theorem isSecond_iff {lead b : UInt8} : isSecond lead b = true ↔
    isContinuation b = true ∧ (lead = 0xE0 → 0xA0 ≤ b.toNat) ∧ (lead = 0xED → b.toNat ≤ 0x9F) ∧
      (lead = 0xF0 → 0x90 ≤ b.toNat) ∧ (lead = 0xF4 → b.toNat ≤ 0x8F) := by
  rw [isContinuation_iff]
  unfold isSecond
  (repeat' split) <;> simp_all [within_iff, isContinuation_iff] <;> omega

theorem ascii_iff {b : UInt8} : b < 0x80 ↔ b.toNat < 0x80 :=
  UInt8.lt_iff_toNat_lt

theorem not_isContinuation {b : UInt8} (hb : b < 0x80) : isContinuation b = false := by
  rw [ascii_iff] at hb
  rw [Bool.eq_false_iff, ne_eq, isContinuation_iff]
  exact fun h => absurd hb (Nat.not_lt.mpr h.1)

theorem not_isSecond {lead b : UInt8} (hb : b < 0x80) : isSecond lead b = false := by
  rw [Bool.eq_false_iff, ne_eq, isSecond_iff, not_isContinuation hb]
  exact fun h => Bool.false_ne_true h.1

/-! ### The bytes of a character -/

/-- The bytes complete the character with the given number. -/
inductive Complete (lead : UInt8) : List UInt8 → Nat → Prop
  | one : lead < 0x80 → Complete lead [] lead.toNat
  | two {b} : within 0xC2 0xDF lead = true → isContinuation b = true →
      Complete lead [b] (lead.toNat % 32 * 64 + payload b)
  | three {b c} : within 0xE0 0xEF lead = true → isSecond lead b = true → isContinuation c = true →
      Complete lead [b, c] ((lead.toNat % 16 * 64 + payload b) * 64 + payload c)
  | four {b c d} : within 0xF0 0xF4 lead = true → isSecond lead b = true → isContinuation c = true →
      isContinuation d = true →
      Complete lead [b, c, d] (((lead.toNat % 8 * 64 + payload b) * 64 + payload c) * 64 + payload d)

/-- The ranges of leads lie behind one another. -/
theorem not_within_of_lt (low high : UInt8) {low' high' b : UInt8} (h : within low' high' b = true) (hlt : high < low') :
    within low high b = false := by
  rw [within_iff] at h
  rw [UInt8.lt_iff_toNat_lt] at hlt
  rw [Bool.eq_false_iff, ne_eq, within_iff]
  omega

theorem not_ascii_of_within {low high b : UInt8} (h : within low high b = true) (hlow : 0x80 ≤ low) : ¬b < 0x80 := by
  rw [within_iff] at h
  rw [UInt8.le_iff_toNat_le] at hlow
  rw [ascii_iff]
  exact Nat.not_lt.mpr (Nat.le_trans hlow h.1)

theorem Complete.decodeStep {lead : UInt8} {tail : List UInt8} {n : Nat} (h : Complete lead tail n)
    (rest : List UInt8) : decodeStep lead (tail ++ rest) = (some (Char.ofNat n), rest) := by
  cases h with
  | one hlead => simp [Text.decodeStep, hlead]
  | two hlead hb => simp [Text.decodeStep, not_ascii_of_within hlead (by decide), hlead, hb]
  | three hlead hb hc =>
    simp [Text.decodeStep, not_ascii_of_within hlead (by decide), not_within_of_lt 0xC2 0xDF hlead (by decide),
      hlead, hb, hc]
  | four hlead hb hc hd =>
    simp [Text.decodeStep, not_ascii_of_within hlead (by decide), not_within_of_lt 0xC2 0xDF hlead (by decide),
      not_within_of_lt 0xE0 0xEF hlead (by decide), hlead, hb, hc, hd]

theorem complete_of_decodeStep {lead : UInt8} {rest after : List UInt8} {c : Char}
    (h : decodeStep lead rest = (some c, after)) :
    ∃ tail n, Complete lead tail n ∧ rest = tail ++ after ∧ c = Char.ofNat n := by
  unfold decodeStep at h
  (repeat' split at h) <;> cases h
  · next hlead => exact ⟨[], _, .one hlead, rfl, rfl⟩
  · next hlead _ b hb => exact ⟨[b], _, .two hlead hb, rfl, rfl⟩
  · next hlead _ b hb _ c hc => exact ⟨[b, c], _, .three hlead hb hc, rfl, rfl⟩
  · next hlead _ b hb _ c hc _ d hd => exact ⟨[b, c, d], _, .four hlead hb hc hd, rfl, rfl⟩

theorem val_ofNat {n : Nat} (h : n.isValidChar) : (Char.ofNat n).val.toNat = n := by
  rw [Char.ofNat, dif_pos h]
  rfl

theorem toNat_ofNat {n : Nat} (h : n < 256) : (UInt8.ofNat n).toNat = n := by
  rw [UInt8.toNat_ofNat', Nat.mod_eq_of_lt h]

theorem ofNat_eq {n : Nat} {b : UInt8} (h : n = b.toNat) : UInt8.ofNat n = b := by
  rw [h, UInt8.ofNat_toNat]

/-- A complete character is written with its bytes. -/
theorem Complete.utf8EncodeChar {lead : UInt8} {tail : List UInt8} {n : Nat} (h : Complete lead tail n) :
    String.utf8EncodeChar (Char.ofNat n) = lead :: tail := by
  cases h with
  | one hlead =>
    rw [ascii_iff] at hlead
    rw [String.utf8EncodeChar, val_ofNat (.inl (by omega)), if_pos (by omega), UInt8.ofNat_toNat]
  | @two b hlead hb =>
    rw [within_iff] at hlead
    rw [isContinuation_iff] at hb
    simp only [UInt8.reduceToNat] at hlead
    unfold payload
    rw [String.utf8EncodeChar, val_ofNat (.inl (by omega)), if_neg (by omega), if_pos (by omega),
      ofNat_eq (b := lead) (by omega), ofNat_eq (b := b) (by omega)]
  | @three b c hlead hb hc =>
    rw [within_iff] at hlead
    rw [isSecond_iff, isContinuation_iff] at hb
    rw [isContinuation_iff] at hc
    simp only [UInt8.reduceToNat, ← UInt8.toNat_inj] at hlead hb
    unfold payload
    rw [String.utf8EncodeChar, val_ofNat (by unfold Nat.isValidChar; omega), if_neg (by omega), if_neg (by omega),
      if_pos (by omega), ofNat_eq (b := lead) (by omega), ofNat_eq (b := b) (by omega), ofNat_eq (b := c) (by omega)]
  | @four b c d hlead hb hc hd =>
    rw [within_iff] at hlead
    rw [isSecond_iff, isContinuation_iff] at hb
    rw [isContinuation_iff] at hc hd
    simp only [UInt8.reduceToNat, ← UInt8.toNat_inj] at hlead hb
    unfold payload
    rw [String.utf8EncodeChar, val_ofNat (by unfold Nat.isValidChar; omega), if_neg (by omega), if_neg (by omega),
      if_neg (by omega), ofNat_eq (b := lead) (by omega), ofNat_eq (b := b) (by omega), ofNat_eq (b := c) (by omega),
      ofNat_eq (b := d) (by omega)]

/-- The bytes that a character is written with complete it. -/
theorem complete_utf8EncodeChar (c : Char) :
    ∃ lead tail n, String.utf8EncodeChar c = lead :: tail ∧ Complete lead tail n ∧ Char.ofNat n = c := by
  have hvalid : c.val.toNat < 0xD800 ∨ 0xDFFF < c.val.toNat ∧ c.val.toNat < 0x110000 := c.valid
  have hchar (n : Nat) (h : n = c.val.toNat) : Char.ofNat n = c := by
    rw [h]
    exact Char.ofNat_toNat c
  rw [String.utf8EncodeChar]
  generalize c.val.toNat = v at hvalid hchar
  split
  · refine ⟨_, _, _, rfl, .one ?_, hchar _ (toNat_ofNat (by omega))⟩
    rw [ascii_iff, toNat_ofNat (by omega)]
    omega
  split
  · have hlead : (UInt8.ofNat (v / 64 % 32 + 192)).toNat = v / 64 % 32 + 192 := toNat_ofNat (by omega)
    have hb : (UInt8.ofNat (v % 64 + 128)).toNat = v % 64 + 128 := toNat_ofNat (by omega)
    refine ⟨_, _, _, rfl, .two ?_ ?_, hchar _ ?_⟩
    · rw [within_iff, hlead]
      simp only [UInt8.reduceToNat]
      omega
    · rw [isContinuation_iff, hb]
      omega
    · rw [payload, hlead, hb]
      omega
  split
  · have hlead : (UInt8.ofNat (v / 4096 % 16 + 224)).toNat = v / 4096 % 16 + 224 := toNat_ofNat (by omega)
    have hb : (UInt8.ofNat (v / 64 % 64 + 128)).toNat = v / 64 % 64 + 128 := toNat_ofNat (by omega)
    have hc : (UInt8.ofNat (v % 64 + 128)).toNat = v % 64 + 128 := toNat_ofNat (by omega)
    refine ⟨_, _, _, rfl, .three ?_ ?_ ?_, hchar _ ?_⟩
    · rw [within_iff, hlead]
      simp only [UInt8.reduceToNat]
      omega
    · rw [isSecond_iff, isContinuation_iff, hb]
      simp only [← UInt8.toNat_inj, hlead, UInt8.reduceToNat]
      omega
    · rw [isContinuation_iff, hc]
      omega
    · rw [payload, payload, hlead, hb, hc]
      omega
  · have hlead : (UInt8.ofNat (v / 262144 % 8 + 240)).toNat = v / 262144 % 8 + 240 := toNat_ofNat (by omega)
    have hb : (UInt8.ofNat (v / 4096 % 64 + 128)).toNat = v / 4096 % 64 + 128 := toNat_ofNat (by omega)
    have hc : (UInt8.ofNat (v / 64 % 64 + 128)).toNat = v / 64 % 64 + 128 := toNat_ofNat (by omega)
    have hd : (UInt8.ofNat (v % 64 + 128)).toNat = v % 64 + 128 := toNat_ofNat (by omega)
    refine ⟨_, _, _, rfl, .four ?_ ?_ ?_ ?_, hchar _ ?_⟩
    · rw [within_iff, hlead]
      simp only [UInt8.reduceToNat]
      omega
    · rw [isSecond_iff, isContinuation_iff, hb]
      simp only [← UInt8.toNat_inj, hlead, UInt8.reduceToNat]
      omega
    · rw [isContinuation_iff, hc]
      omega
    · rw [isContinuation_iff, hd]
      omega
    · rw [payload, payload, payload, hlead, hb, hc, hd]
      omega

/-! ### Text -/

theorem toList_loop (bytes : ByteArray) (i : Nat) (read : List UInt8) :
    ByteArray.toList.loop bytes i read = read.reverse ++ bytes.data.toList.drop i := by
  fun_induction ByteArray.toList.loop bytes i read with
  | case1 i read h ih =>
    have hi : i < bytes.data.toList.length := by simpa using h
    rw [ih, List.drop_eq_getElem_cons hi]
    simp [ByteArray.get!, h]
  | case2 i read h => rw [List.drop_eq_nil_of_le (by simpa using Nat.le_of_not_lt h), List.append_nil]

/-- The bytes of a text are those of its characters in turn. -/
theorem encode_ofList (cs : List Char) : encode (String.ofList cs) = cs.flatMap String.utf8EncodeChar := by
  rw [encode, String.toUTF8_eq_toByteArray, String.toByteArray_ofList, ByteArray.toList, toList_loop, List.utf8Encode,
    List.toList_data_toByteArray]
  rfl

theorem encode_append (a b : String) : encode (a ++ b) = encode a ++ encode b := by
  have hencode (s : String) : encode s = s.toList.flatMap String.utf8EncodeChar := by
    rw [← encode_ofList, String.ofList_toList]
  rw [hencode, hencode, hencode, String.toList_append, List.flatMap_append]

theorem decode_encode (text : String) : decode (encode text) = text.toList.map some := by
  rw [← String.ofList_toList (s := text), encode_ofList, String.ofList_toList]
  induction text.toList with
  | nil => rw [List.flatMap_nil, decode, List.map_nil]
  | cons c cs ih =>
    obtain ⟨lead, tail, n, hbytes, hcomplete, rfl⟩ := complete_utf8EncodeChar c
    rw [List.flatMap_cons, hbytes, List.cons_append, decode, hcomplete.decodeStep, ih, List.map_cons]

/-- What is written is read back. -/
theorem decodeLossy_encode (text : String) : decodeLossy (encode text) = text := by
  rw [decodeLossy, decode_encode, List.map_map]
  exact (congrArg String.ofList (List.map_id _)).trans String.ofList_toList

/-- The bytes that a part is written with when it was read. -/
theorem encode_decodeLossy (bytes : List UInt8) :
    encode (decodeLossy bytes) = (decode bytes).flatMap fun x => String.utf8EncodeChar (x.getD replacement) := by
  rw [decodeLossy, encode_ofList, List.flatMap_map]

/-! ### Bytes that are characters of their own -/

theorem decode_ascii {b : UInt8} (hb : b < 0x80) (rest : List UInt8) :
    decode (b :: rest) = some (Char.ofNat b.toNat) :: decode rest := by
  have hstep : decodeStep b rest = (some (Char.ofNat b.toNat), rest) := (Complete.one hb).decodeStep rest
  rw [decode, hstep]

theorem encode_decodeLossy_cons {b : UInt8} (hb : b < 0x80) (rest : List UInt8) :
    encode (decodeLossy (b :: rest)) = b :: encode (decodeLossy rest) := by
  rw [encode_decodeLossy, encode_decodeLossy, decode_ascii hb, List.flatMap_cons]
  exact congrArg (· ++ _) (Complete.one hb).utf8EncodeChar

theorem encode_decodeLossy_of_ascii {bytes : List UInt8} (h : ∀ b ∈ bytes, b < 0x80) :
    encode (decodeLossy bytes) = bytes := by
  induction bytes with
  | nil => rw [encode_decodeLossy, decode, List.flatMap_nil]
  | cons b rest ih =>
    rw [encode_decodeLossy_cons (h b List.mem_cons_self), ih fun x hx => h x (List.mem_cons_of_mem _ hx)]

/-- No character goes on over a byte that is one of its own. -/
theorem decodeStep_append {b : UInt8} (hb : b < 0x80) (lead : UInt8) (rest after : List UInt8) :
    decodeStep lead (rest ++ b :: after) = ((decodeStep lead rest).1, (decodeStep lead rest).2 ++ b :: after) := by
  have hcontinuation := not_isContinuation hb
  have hsecond : isSecond lead b = false := not_isSecond hb
  rcases hstep : decodeStep lead rest with ⟨_ | c, left⟩
  · -- A character that lacks a byte still lacks it, since `b` is none of its bytes.
    unfold decodeStep at hstep
    (repeat' split at hstep) <;> cases hstep <;> simp [decodeStep, *]
  · obtain ⟨tail, n, hcomplete, rfl, rfl⟩ := complete_of_decodeStep hstep
    rw [List.append_assoc, hcomplete.decodeStep]

theorem decode_append {b : UInt8} (hb : b < 0x80) (bytes after : List UInt8) :
    decode (bytes ++ b :: after) = decode bytes ++ decode (b :: after) := by
  fun_induction decode bytes with
  | case1 => rfl
  | case2 lead rest ih => rw [List.cons_append, decode, decodeStep_append hb, ih, List.cons_append]

theorem encode_decodeLossy_append {b : UInt8} (hb : b < 0x80) (bytes after : List UInt8) :
    encode (decodeLossy (bytes ++ b :: after)) = encode (decodeLossy bytes) ++ encode (decodeLossy (b :: after)) := by
  rw [encode_decodeLossy, encode_decodeLossy, encode_decodeLossy, decode_append hb, List.flatMap_append]

theorem decodeStep_suffix (lead : UInt8) (rest : List UInt8) : (decodeStep lead rest).2 <:+ rest := by
  unfold decodeStep
  (repeat' split) <;> simp [List.suffix_cons_iff]

/-- The sign for a broken part has no byte that is a character of its own, so such bytes are in what is written only if
they were in what was read. -/
theorem mem_of_mem_encode_decodeLossy {b : UInt8} (hb : b < 0x80) {bytes : List UInt8}
    (h : b ∈ encode (decodeLossy bytes)) : b ∈ bytes := by
  rw [encode_decodeLossy] at h
  fun_induction decode bytes with
  | case1 => exact h
  | case2 lead rest ih =>
    rw [List.flatMap_cons, List.mem_append] at h
    rcases hstep : decodeStep lead rest with ⟨_ | c, after⟩
    · have hsuffix := decodeStep_suffix lead rest
      rw [hstep] at h ih hsuffix
      rcases h with h | h
      · have hreplacement : (String.utf8EncodeChar replacement).any (· < 0x80) = false := by decide
        exact absurd (decide_eq_true hb) (List.any_eq_false.mp hreplacement b h)
      · exact List.mem_cons_of_mem lead (hsuffix.subset (ih h))
    · obtain ⟨tail, n, hcomplete, rfl, rfl⟩ := complete_of_decodeStep hstep
      rw [hstep] at h ih
      rcases h with h | h
      · rw [Option.getD_some, hcomplete.utf8EncodeChar] at h
        exact List.mem_append_left after h
      · exact List.mem_append_right (lead :: tail) (ih h)

end Treewalk.Text
