import Mathlib.Tactic.Linarith
import Treewalk.Proofs.Number.Rationals

/-!
Doubles and their bits. A double is known by its bits, and what the bits stand for is what the operations on doubles take them
for. A finite double without a sign is the one nearest to the number that it is; so it is read back from every decimal of that
number, and from the shortest one.
-/

namespace Treewalk.Number

open Float.Model (Format)
open Float.Model.UnpackedFloat

/-! ### Fields -/

theorem toNat_unpackMantissa (b : BitVec Format.binary64.numBits) : (unpackMantissa b).toNat = b.toNat % 2 ^ 52 := by
  simp [unpackMantissa]

theorem toNat_unpackExponent (b : BitVec Format.binary64.numBits) :
    (unpackExponent b).toNat = b.toNat / 2 ^ 52 % 2 ^ 11 := by
  simp [unpackExponent, Nat.shiftRight_eq_div_pow]

variable {b : BitVec Format.binary64.numBits} {x : Float}

theorem unpackExponent_eq_neg_one : unpackExponent b = -1#_ ↔ b.toNat / 2 ^ 52 % 2 ^ 11 = 2047 := by
  rw [← BitVec.toNat_inj, toNat_unpackExponent]
  rfl

theorem unpackExponent_eq_zero : unpackExponent b = 0#_ ↔ b.toNat / 2 ^ 52 % 2 ^ 11 = 0 := by
  rw [← BitVec.toNat_inj, toNat_unpackExponent]
  rfl

theorem least_exponent (h : unpackExponent b = 0#_) :
    ((unpackExponent b).toNat : ℤ) - (Format.binary64.exponentBias + (52 : ℕ)) + 1 = -1074 := by
  rw [h]
  rfl

theorem unpackMantissa_eq_zero : unpackMantissa b = 0#_ ↔ b.toNat % 2 ^ 52 = 0 := by
  rw [← BitVec.toNat_inj, toNat_unpackMantissa]
  rfl

theorem toNat_append {w v : ℕ} (x : BitVec w) (y : BitVec v) : (x ++ y).toNat = x.toNat * 2 ^ v + y.toNat := by
  rw [BitVec.toNat_append, ← Nat.shiftLeft_add_eq_or_of_lt y.isLt, Nat.shiftLeft_eq]

theorem toNat_unpackSign (b : BitVec Format.binary64.numBits) : (unpackSign b).toNat = b.toNat / 2 ^ 63 % 2 := by
  show (b.extractLsb' 63 1).toNat = b.toNat / 2 ^ 63 % 2
  simp [Nat.shiftRight_eq_div_pow]

/-- Bits are their three fields put together again. -/
theorem packComponents_unpack (b : BitVec Format.binary64.numBits) :
    packComponents .binary64 (Sign.ofBitVec (unpackSign b)) (unpackExponent b) (unpackMantissa b) = b := by
  have hsign : (Sign.ofBitVec (unpackSign b)).toBitVec = unpackSign b := by
    unfold Sign.ofBitVec
    split
    · next h => exact h.symm
    · next h => exact ((BitVec.eq_zero_or_eq_one _).resolve_left h).symm
  have hlt : b.toNat < 2 ^ 64 := b.isLt
  unfold packComponents
  apply BitVec.eq_of_toNat_eq
  rw [hsign, toNat_append, toNat_append, toNat_unpackSign, toNat_unpackExponent, toNat_unpackMantissa]
  show (b.toNat / 2 ^ 63 % 2 * 2 ^ 11 + b.toNat / 2 ^ 52 % 2 ^ 11) * 2 ^ 52 + b.toNat % 2 ^ 52 = b.toNat
  omega

theorem packComponents_eq {e : BitVec Format.binary64.exponentBits}
    {m : BitVec Format.binary64.mantissaBitsWithoutImplicit} (he : unpackExponent b = e) (hm : unpackMantissa b = m) :
    packComponents .binary64 (Sign.ofBitVec (unpackSign b)) e m = b := by
  rw [← he, ← hm, packComponents_unpack]

/-! ### Bits -/

theorem pack_subnormal (sign : Sign) {m : ℕ} (hpos : 0 < m) (hlt : m < 2 ^ 52) :
    pack .binary64 (.finite sign m (-1074) hpos) = packComponents .binary64 sign 0#_ (BitVec.ofNat _ m) := by
  have hlog : m.log2 < 52 := (Nat.log2_lt hpos.ne').mpr hlt
  have hbits : ¬m.log2 + 1 = Format.binary64.mantissaBits := by
    show ¬m.log2 + 1 = 53
    omega
  unfold pack
  dsimp only
  rw [if_neg (by decide), if_neg hbits]

theorem pack_normal (sign : Sign) {m field : ℕ} (hpos : 0 < m) (hle : 2 ^ 52 ≤ m) (hlt : m < 2 ^ 53) (hfield : field < 2047) :
    pack .binary64 (.finite sign m (field - 1075) hpos) =
      packComponents .binary64 sign (BitVec.ofNat _ field) (BitVec.ofNat _ m) := by
  have hlow : 52 ≤ m.log2 := (Nat.le_log2 hpos.ne').mpr hle
  have hhigh : m.log2 < 53 := (Nat.log2_lt hpos.ne').mpr hlt
  have hbits : m.log2 + 1 = Format.binary64.mantissaBits := by
    show m.log2 + 1 = 53
    omega
  have hbiased : ((field : ℤ) - 1075 + Format.binary64.exponentBias + Format.binary64.mantissaBitsWithoutImplicit).toNat =
      field := by
    show ((field : ℤ) - 1075 + 1023 + 52).toNat = field
    omega
  unfold pack
  dsimp only
  rw [hbiased, if_neg (by show ¬2048 ≤ field + 1; omega), if_pos hbits]

/-- What bits stand for, by their exponent field and their fraction. -/
inductive Unpacked (b : BitVec Format.binary64.numBits) : Float.Model.UnpackedFloat → Prop where
  | infinite : unpackExponent b = -1#_ → unpackMantissa b = 0#_ → Unpacked b (.infinity (Sign.ofBitVec (unpackSign b)))
  | nan : unpackExponent b = -1#_ → unpackMantissa b ≠ 0#_ → Unpacked b .notANumber
  | zero : unpackExponent b = 0#_ → unpackMantissa b = 0#_ → Unpacked b (.zero (Sign.ofBitVec (unpackSign b)))
  | subnormal (hpos : 0 < (unpackMantissa b).toNat) : unpackExponent b = 0#_ →
      Unpacked b (.finite (Sign.ofBitVec (unpackSign b)) (unpackMantissa b).toNat (-1074) hpos)
  | normal (hpos : 0 < (1#1 ++ unpackMantissa b).toNat) : unpackExponent b ≠ -1#_ → unpackExponent b ≠ 0#_ →
      Unpacked b (.finite (Sign.ofBitVec (unpackSign b)) (1#1 ++ unpackMantissa b).toNat ((unpackExponent b).toNat - 1075) hpos)

theorem unpacked_unpack (b : BitVec Format.binary64.numBits) : Unpacked b (unpack .binary64 b) := by
  unfold unpack
  dsimp only
  by_cases hones : unpackExponent b = -1#_
  · rw [if_pos hones]
    by_cases hzero : unpackMantissa b = 0#_
    · rw [if_pos hzero]
      exact .infinite hones hzero
    · rw [if_neg hzero]
      exact .nan hones hzero
  · rw [if_neg hones]
    by_cases hnone : unpackExponent b = 0#_
    · rw [if_pos hnone]
      by_cases hzero : unpackMantissa b = 0#_
      · rw [dif_pos hzero]
        exact .zero hnone hzero
      · have hpos : 0 < (unpackMantissa b).toNat := Nat.pos_of_ne_zero fun h => hzero (BitVec.eq_of_toNat_eq h)
        have hleast := Unpacked.subnormal hpos hnone
        rw [← least_exponent hnone] at hleast
        rw [dif_neg hzero]
        exact hleast
    · rw [if_neg hnone]
      exact .normal _ hones hnone

theorem toNat_lead (b : BitVec Format.binary64.numBits) : (1#1 ++ unpackMantissa b).toNat = 2 ^ 52 + b.toNat % 2 ^ 52 := by
  rw [toNat_append, toNat_unpackMantissa, BitVec.toNat_one Nat.one_pos, one_mul]

/-- Valid bits are what the number that they stand for is packed into. -/
theorem pack_unpack (hvalid : Format.binary64.Valid b) : pack .binary64 (unpack .binary64 b) = b := by
  have hcases := unpacked_unpack b
  generalize unpack .binary64 b = u at hcases
  cases hcases with
  | infinite hones hzero => exact packComponents_eq hones hzero
  | nan hones hrest => exact (hvalid.eq_packedNaN hones hrest).symm
  | zero hnone hzero => exact packComponents_eq hnone hzero
  | subnormal hpos hnone =>
    rw [pack_subnormal _ hpos (unpackMantissa b).isLt, BitVec.ofNat_toNat, BitVec.setWidth_eq, packComponents_eq hnone rfl]
  | normal hpos hones hsome =>
    have hlead := toNat_lead b
    have hfield : (unpackExponent b).toNat < 2047 := by
      have hlt : (unpackExponent b).toNat < 2 ^ 11 := (unpackExponent b).isLt
      have hne : (unpackExponent b).toNat ≠ 2047 := fun h => hones (BitVec.eq_of_toNat_eq h)
      omega
    have hrest : unpackMantissa b = BitVec.ofNat _ (1#1 ++ unpackMantissa b).toNat := by
      apply BitVec.eq_of_toNat_eq
      rw [BitVec.toNat_ofNat, hlead, toNat_unpackMantissa]
      show _ = (2 ^ 52 + b.toNat % 2 ^ 52) % 2 ^ 52
      omega
    rw [pack_normal _ hpos (by omega) (by omega) hfield, BitVec.ofNat_toNat, BitVec.setWidth_eq, packComponents_eq rfl hrest]

theorem ofBits_toBits (x : Float) : Float.ofBits x.toBits = x := by
  obtain ⟨⟨bits, hvalid⟩⟩ := x
  show Float.ofModel (Float.Model.pack (unpack .binary64 bits.toBitVec)) = _
  unfold Float.Model.pack
  congr 2
  rw [pack_unpack hvalid]

/-! ### What bits stand for -/

/-- A double as the operations on doubles take it, and its exact content. -/
inductive Agrees : Float.Model.UnpackedFloat → Exact → Prop where
  | nan : Agrees .notANumber .nan
  | infinite (sign : Sign) : Agrees (.infinity sign) (.infinite (sign == .negative))
  | zero (sign : Sign) : Agrees (.zero sign) (.finite (sign == .negative) ⟨0, -1074⟩)
  | finite (sign : Sign) (m : ℕ) (e : ℤ) (hpos : 0 < m) : Agrees (.finite sign m e hpos) (.finite (sign == .negative) ⟨m, e⟩)

theorem sign_eq (b : BitVec Format.binary64.numBits) :
    (b.toNat / 2 ^ 63 % 2 == 1) = (Sign.ofBitVec (unpackSign b) == .negative) := by
  have htop := toNat_unpackSign b
  unfold Sign.ofBitVec
  split
  · next h =>
    rw [← htop, h]
    rfl
  · next h =>
    rw [← htop, (BitVec.eq_zero_or_eq_one _).resolve_left h]
    rfl

theorem exactOfBits_eq (bits : ℕ) : exactOfBits bits =
    if bits / 2 ^ 52 % 2 ^ 11 = 2047 then
      if bits % 2 ^ 52 = 0 then .infinite (bits / 2 ^ 63 % 2 == 1) else .nan
    else if bits / 2 ^ 52 % 2 ^ 11 = 0 then .finite (bits / 2 ^ 63 % 2 == 1) ⟨bits % 2 ^ 52, -1074⟩
    else .finite (bits / 2 ^ 63 % 2 == 1) ⟨2 ^ 52 + bits % 2 ^ 52, (bits / 2 ^ 52 % 2 ^ 11 : ℕ) - 1075⟩ :=
  rfl

theorem agrees_unpack (b : BitVec Format.binary64.numBits) : Agrees (unpack .binary64 b) (exactOfBits b.toNat) := by
  have hcases := unpacked_unpack b
  generalize unpack .binary64 b = u at hcases
  rw [exactOfBits_eq, sign_eq]
  cases hcases with
  | infinite hones hzero =>
    rw [if_pos (unpackExponent_eq_neg_one.mp hones), if_pos (unpackMantissa_eq_zero.mp hzero)]
    exact .infinite _
  | nan hones hrest =>
    rw [if_pos (unpackExponent_eq_neg_one.mp hones), if_neg fun h => hrest (unpackMantissa_eq_zero.mpr h)]
    exact .nan
  | zero hnone hzero =>
    have hfield := unpackExponent_eq_zero.mp hnone
    rw [if_neg (by omega), if_pos hfield, unpackMantissa_eq_zero.mp hzero]
    exact .zero _
  | subnormal hpos hnone =>
    have hfield := unpackExponent_eq_zero.mp hnone
    rw [if_neg (by omega), if_pos hfield, ← toNat_unpackMantissa]
    exact .finite _ _ _ _
  | normal hpos hones hsome =>
    rw [if_neg fun h => hones (unpackExponent_eq_neg_one.mpr h), if_neg fun h => hsome (unpackExponent_eq_zero.mpr h),
      ← toNat_lead, ← toNat_unpackExponent]
    exact .finite _ _ _ _

theorem isNaN_iff : x.isNaN = true ↔ exact x = .nan := by
  show (unpack .binary64 x.toBits.toBitVec).isNaN = true ↔ exactOfBits x.toBits.toBitVec.toNat = .nan
  have h := agrees_unpack x.toBits.toBitVec
  generalize unpack .binary64 x.toBits.toBitVec = u at h
  generalize exactOfBits x.toBits.toBitVec.toNat = e at h
  cases h with
  | nan => exact iff_of_true rfl rfl
  | infinite | zero | finite => exact iff_of_false Bool.false_ne_true (by simp)

theorem isFinite_iff : x.isFinite = true ↔ ∃ negative m, exact x = .finite negative m := by
  show (unpack .binary64 x.toBits.toBitVec).isFinite = true ↔
    ∃ negative m, exactOfBits x.toBits.toBitVec.toNat = .finite negative m
  have h := agrees_unpack x.toBits.toBitVec
  generalize unpack .binary64 x.toBits.toBitVec = u at h
  generalize exactOfBits x.toBits.toBitVec.toNat = e at h
  cases h with
  | zero | finite => exact iff_of_true rfl ⟨_, _, rfl⟩
  | nan | infinite => exact iff_of_false Bool.false_ne_true (by simp)

/-- A finite double without a sign. -/
theorem exact_of_isFinite (hfinite : x.isFinite = true) (hsign : x.toBits.toNat < 2 ^ 63) :
    ∃ m, exact x = .finite false m := by
  obtain ⟨negative, m, hx⟩ := isFinite_iff.mp hfinite
  have hclear : (x.toBits.toNat / 2 ^ 63 % 2 == 1) = false := by
    rw [Nat.div_eq_of_lt hsign]
    rfl
  have hx' := hx
  rw [exact, exactOfBits_eq, hclear] at hx'
  split at hx'
  · split at hx' <;> cases hx'
  · split at hx' <;> cases hx' <;> exact ⟨_, hx⟩

/-! ### Doubles and the numbers that they are -/

/-- A finite double without a sign is the nearest one to the number that it is. -/
theorem bitsOf_exactOfBits {bits : ℕ} {m : Magnitude} (hlt : bits < 2 ^ 64) (h : exactOfBits bits = .finite false m) :
    bitsOf m.toRat = bits := by
  have hinfinity : infinityBits = 2047 * 2 ^ 52 := rfl
  rw [exactOfBits_eq] at h
  split at h
  · split at h
    · cases h
    · cases h
  · next hfield =>
    split at h
    · next hnone =>
      rw [Exact.finite.injEq] at h
      obtain ⟨hsign, rfl⟩ := h
      rw [beq_eq_false_iff_ne] at hsign
      show bitsOf ((bits % 2 ^ 52 : ℕ) * 2 ^ (-1074 : ℤ)) = bits
      by_cases hzero : bits % 2 ^ 52 = 0
      · rw [hzero, Nat.cast_zero, zero_mul, bitsOf, if_pos rfl]
        omega
      · rw [bitsOf_mantissa (by omega) (by omega) le_rfl (.inl rfl), hinfinity]
        omega
    · next hsome =>
      rw [Exact.finite.injEq] at h
      obtain ⟨hsign, rfl⟩ := h
      rw [beq_eq_false_iff_ne] at hsign
      show bitsOf ((2 ^ 52 + bits % 2 ^ 52 : ℕ) * 2 ^ ((bits / 2 ^ 52 % 2 ^ 11 : ℕ) - 1075 : ℤ)) = bits
      rw [bitsOf_mantissa (by omega) (by omega) (by omega) (.inr (by omega)), hinfinity]
      omega

/-- A decimal that is nearest to a finite double without a sign is read as that double. -/
theorem Decimal.toFloat_eq {m : Magnitude} (h : exact x = .finite false m) {d : Decimal} (hd : d.bits = bitsOf m.toRat)
    : d.toFloat = x := by
  have hbits := bitsOf_exactOfBits x.toBits.toNat_lt h
  show Float.ofBits (UInt64.ofNat d.bits) = x
  rw [hd, hbits, UInt64.ofNat_toNat, ofBits_toBits]

/-- The number that a finite double is. -/
def value? (x : Float) : Option ℚ :=
  match exact x with
  | .finite negative m => some (if negative then -m.toRat else m.toRat)
  | _ => none

/-- A number without its fraction. -/
def truncated (q : ℚ) : ℤ := if 0 ≤ q then ⌊q⌋ else ⌈q⌉

/-- The whole number that is left of a finite double when its fraction is dropped. -/
def truncation? (x : Float) : Option ℤ := (value? x).map truncated

theorem Magnitude.toRat_nonneg (m : Magnitude) : 0 ≤ m.toRat :=
  mul_nonneg (Nat.cast_nonneg _) (zpow_pos two_pos _).le

theorem Magnitude.floor_toRat (m : Magnitude) : ⌊m.toRat⌋ = m.floor := by
  rw [← m.div_eq_toRat, floor, ← Int.natCast_floor_eq_floor (by positivity), Nat.floor_div_eq_div]

theorem truncated_neg (q : ℚ) : truncated (-q) = -truncated q := by
  unfold truncated
  rcases lt_trichotomy q 0 with hq | rfl | hq
  · rw [if_pos (by linarith), if_neg (by linarith), Int.floor_neg]
  · simp
  · rw [if_neg (by linarith), if_pos hq.le, Int.ceil_neg]

theorem truncated_toRat (m : Magnitude) : truncated m.toRat = m.floor := by
  rw [truncated, if_pos m.toRat_nonneg, m.floor_toRat]

theorem integerPart?_eq (x : Float) : integerPart? x = truncation? x := by
  unfold integerPart? truncation? value?
  cases exact x with
  | nan => rfl
  | infinite negative => rfl
  | finite negative m =>
    cases negative with
    | false => exact congrArg some (truncated_toRat m).symm
    | true => exact congrArg some (((truncated_neg _).trans (congrArg _ (truncated_toRat m))).symm)

end Treewalk.Number
