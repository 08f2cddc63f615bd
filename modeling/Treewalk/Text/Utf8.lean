/-!
UTF-8 text in bytes that need not be well formed. Decoding goes character by character; where no character can be
completed, the longest part that begins one is read as broken, or a single byte if there is none.
-/

namespace Treewalk.Text

/-- The byte lies in the range. -/
def within (low high b : UInt8) : Bool :=
  low ≤ b && b ≤ high

/-- The byte continues a character of several bytes. -/
def isContinuation (b : UInt8) : Bool :=
  within 0x80 0xBF b

/-- The byte after `lead` in a character of three or four bytes. Overlong forms, surrogates and numbers beyond the
last character are cut off here. -/
def isSecond (lead b : UInt8) : Bool :=
  if lead == 0xE0 then within 0xA0 0xBF b
  else if lead == 0xED then within 0x80 0x9F b
  else if lead == 0xF0 then within 0x90 0xBF b
  else if lead == 0xF4 then within 0x80 0x8F b
  else isContinuation b

/-- The payload of a continuation byte. -/
def payload (b : UInt8) : Nat :=
  b.toNat % 64

/-- One step of decoding: the character that starts with `lead`, if the bytes complete one, and what stands after the
bytes that were read. -/
def decodeStep (lead : UInt8) (rest : List UInt8) : Option Char × List UInt8 :=
  if lead < 0x80 then (some (Char.ofNat lead.toNat), rest)
  else if within 0xC2 0xDF lead then
    match rest with
    | b :: after =>
      if isContinuation b then (some (Char.ofNat (lead.toNat % 32 * 64 + payload b)), after) else (none, rest)
    | [] => (none, [])
  else if within 0xE0 0xEF lead then
    match rest with
    | b :: after =>
      if isSecond lead b then
        match after with
        | c :: last =>
          if isContinuation c then
            (some (Char.ofNat ((lead.toNat % 16 * 64 + payload b) * 64 + payload c)), last)
          else (none, after)
        | [] => (none, [])
      else (none, rest)
    | [] => (none, [])
  else if within 0xF0 0xF4 lead then
    match rest with
    | b :: after =>
      if isSecond lead b then
        match after with
        | c :: more =>
          if isContinuation c then
            match more with
            | d :: last =>
              if isContinuation d then
                (some (Char.ofNat (((lead.toNat % 8 * 64 + payload b) * 64 + payload c) * 64 + payload d)), last)
              else (none, more)
            | [] => (none, [])
          else (none, after)
        | [] => (none, [])
      else (none, rest)
    | [] => (none, [])
  else (none, rest)

theorem decodeStep_length_le (lead : UInt8) (rest : List UInt8) : (decodeStep lead rest).2.length ≤ rest.length := by
  unfold decodeStep
  (repeat' split) <;> simp <;> omega

/-- The characters of a byte string, `none` for each broken part. -/
def decode : List UInt8 → List (Option Char)
  | [] => []
  | lead :: rest => (decodeStep lead rest).1 :: decode (decodeStep lead rest).2
termination_by bytes => bytes.length
decreasing_by exact Nat.lt_succ_of_le (decodeStep_length_le lead rest)

/-- The sign that stands for a broken part. -/
def replacement : Char := '\uFFFD'

/-- The text of a byte string, with the replacement sign for each broken part. -/
def decodeLossy (bytes : List UInt8) : String :=
  String.ofList ((decode bytes).map (·.getD replacement))

/-- The text of a byte string without broken parts. -/
def decode? (bytes : List UInt8) : Option String :=
  ((decode bytes).mapM id).map String.ofList

/-- The bytes of a text. -/
def encode (text : String) : List UInt8 :=
  text.toUTF8.toList

end Treewalk.Text
