import RegisterLisp.Number.Shortest
import RegisterLisp.Proofs.Number.Rounding

/-!
# The parts of a float

A finite float other than zero is packed from a sign, a mantissa and an exponent, which are unique
if they are written as the format asks for.  `assemble` puts such parts together; every finite float
other than zero is assembled from its fields (`eq_assemble`), and taking it apart gives the parts
back (`unpack_assemble`).
-/

namespace RegisterLisp
namespace Rounding

open Float.Model Float.Model.UnpackedFloat

variable {m : ℕ} {e : ℤ} {s : Sign} {ev : BitVec 11} {mv : BitVec 52}
  {b : BitVec Format.binary64.numBits}

/-! ## Components -/

theorem toNat_unpackMantissa : (unpackMantissa b).toNat = b.toNat % 2 ^ 52 := by
  simp [unpackMantissa]

theorem toNat_unpackExponent : (unpackExponent b).toNat = b.toNat / 2 ^ 52 % 2 ^ 11 := by
  simp [unpackExponent, Nat.shiftRight_eq_div_pow]

theorem toNat_unpackSign : (unpackSign b).toNat = b.toNat / 2 ^ 63 % 2 := by
  simp [unpackSign, Nat.shiftRight_eq_div_pow]

/-- The three fields stand side by side. -/
theorem toNat_packComponents (s : Sign) (ev : BitVec 11) (mv : BitVec 52) :
    (packComponents Format.binary64 s ev mv).toNat =
      2 ^ 63 * s.toBitVec.toNat + 2 ^ 52 * ev.toNat + mv.toNat := by
  rw [packComponents, BitVec.toNat_append, BitVec.toNat_append,
    ← Nat.shiftLeft_add_eq_or_of_lt mv.isLt, ← Nat.shiftLeft_add_eq_or_of_lt ev.isLt,
    Nat.shiftLeft_eq, Nat.shiftLeft_eq]
  omega

/-- The sign comes back from the packed bits. -/
theorem unpackSign_packComponents (s : Sign) (ev : BitVec 11) (mv : BitVec 52) :
    unpackSign (packComponents Format.binary64 s ev mv) = s.toBitVec := by
  have hsign := s.toBitVec.isLt
  have hev := ev.isLt
  have hmv := mv.isLt
  refine BitVec.eq_of_toNat_eq ?_
  rw [toNat_unpackSign, toNat_packComponents]
  omega

theorem toBitVec_ofBitVec (v : BitVec 1) : (Sign.ofBitVec v).toBitVec = v := by
  revert v
  decide

/-- The three fields are all that there is in 64 bits. -/
theorem packComponents_unpack :
    packComponents Format.binary64 (Sign.ofBitVec (unpackSign b)) (unpackExponent b)
      (unpackMantissa b) = b := by
  have hb : b.toNat < 2 ^ 64 := b.isLt
  refine BitVec.eq_of_toNat_eq ?_
  rw [toNat_packComponents, toBitVec_ofBitVec, toNat_unpackSign, toNat_unpackExponent,
    toNat_unpackMantissa]
  omega

/-! ## Unpacking -/

/-- A float with an exponent field that is neither zero nor full has a leading bit that is not
stored. -/
theorem unpack_normal (hinf : unpackExponent b ≠ -1#11) (hzero : unpackExponent b ≠ 0#11)
    (hm : m = 2 ^ 52 + (unpackMantissa b).toNat) (he : e = (unpackExponent b).toNat - 1075)
    (hpos : 0 < m) :
    UnpackedFloat.unpack Format.binary64 b =
      .finite (Sign.ofBitVec (unpackSign b)) m e hpos := by
  have hbits : (1#1 ++ unpackMantissa b).toNat = 2 ^ 52 + (unpackMantissa b).toNat := by
    rw [BitVec.toNat_append, ← Nat.shiftLeft_add_eq_or_of_lt (unpackMantissa b).isLt,
      Nat.shiftLeft_eq]
    rfl
  subst hm he
  rw [UnpackedFloat.unpack]
  simp only [if_neg hinf, if_neg hzero, hbits]
  rfl

/-- One with a zero exponent field does not. -/
theorem unpack_subnormal (hzero : unpackExponent b = 0#11) (hm : m = (unpackMantissa b).toNat)
    (hpos : 0 < m) :
    UnpackedFloat.unpack Format.binary64 b =
      .finite (Sign.ofBitVec (unpackSign b)) m (-1074) hpos := by
  have hne : unpackMantissa b ≠ 0#52 := by
    intro h
    rw [hm, h] at hpos
    exact absurd hpos (by decide)
  subst hm
  rw [UnpackedFloat.unpack]
  simp only [hzero, dif_neg hne]
  rfl

/-! ## Assembling floats -/

/-- Parts as the format asks for, with an exponent that is not too large. -/
structure Representable (m : ℕ) (e : ℤ) : Prop extends Canonical m e where
  le_maxExponent : e ≤ 971

/-- The float with the given parts. -/
def assemble (s : Sign) (h : Representable m e) : Float :=
  .ofModel (.pack (.finite s m e h.pos))

/-- The fields that parts of the format are packed into. -/
theorem pack_eq (h : Representable m e) :
    pack Format.binary64 (.finite s m e h.pos) =
      packComponents Format.binary64 s
        (if 2 ^ 52 ≤ m then BitVec.ofNat 11 (e + 1075).toNat else 0#11) (BitVec.ofNat 52 m) := by
  have hbias : (e + Format.binary64.exponentBias
      + Format.binary64.mantissaBitsWithoutImplicit).toNat = (e + 1075).toNat := by
    have hbias : (Format.binary64.exponentBias : ℤ) = 1023 := rfl
    have hbits : (Format.binary64.mantissaBitsWithoutImplicit : ℤ) = 52 := rfl
    omega
  have hlog : m.log2 + 1 = Format.binary64.mantissaBits ↔ 2 ^ 52 ≤ m := by
    rw [← Nat.le_log2 h.pos.ne']
    have hhigh : m.log2 < 53 := (Nat.log2_lt h.pos.ne').2 h.lt
    have hbits : Format.binary64.mantissaBits = 53 := rfl
    omega
  have hexp := h.le_maxExponent
  rw [UnpackedFloat.pack]
  simp only [hbias, hlog]
  rw [if_neg (by omega)]
  split <;> rfl

/-- Parts that are representable come back. -/
theorem unpack_assemble (s : Sign) (h : Representable m e) :
    (assemble s h).toModel.unpack = .finite s m e h.pos := by
  have hexp := h.le_maxExponent
  have hmin := h.minExponent_le
  have hlt := h.lt
  -- The three bounds decide which of the fields are full or empty.
  have hsign : Sign.ofBitVec s.toBitVec = s := by cases s <;> rfl
  have hunpack : (assemble s h).toModel.unpack = UnpackedFloat.unpack Format.binary64
      (UnpackedFloat.pack Format.binary64 (.finite s m e h.pos)) := rfl
  rw [hunpack, pack_eq h]
  by_cases hm : 2 ^ 52 ≤ m
  · -- The leading bit is not stored; the exponent field, neither empty nor all ones, implies it.
    have hev : (BitVec.ofNat 11 (e + 1075).toNat).toNat = (e + 1075).toNat := by
      rw [BitVec.toNat_ofNat]
      exact Nat.mod_eq_of_lt (by omega)
    have hmv : (BitVec.ofNat 52 m).toNat = m - 2 ^ 52 := by
      rw [BitVec.toNat_ofNat]
      omega
    have hinf : BitVec.ofNat 11 (e + 1075).toNat ≠ -1#11 := by
      intro heq
      have htoNat : (e + 1075).toNat = 2047 := hev.symm.trans (congrArg BitVec.toNat heq)
      omega
    have hzero : BitVec.ofNat 11 (e + 1075).toNat ≠ 0#11 := by
      intro heq
      have htoNat : (e + 1075).toNat = 0 := hev.symm.trans (congrArg BitVec.toNat heq)
      omega
    rw [if_pos hm, unpack_normal (e := e) (by simpa using hinf) (by simpa using hzero)
      (by rw [unpackMantissa_packComponents, hmv]; omega)
      (by rw [unpackExponent_packComponents, hev]; omega) h.pos, unpackSign_packComponents, hsign]
  · -- Without a leading bit the mantissa is stored as it is.
    have he : e = -1074 := h.normal.resolve_left hm
    have hmv : (BitVec.ofNat 52 m).toNat = m := by
      rw [BitVec.toNat_ofNat]
      exact Nat.mod_eq_of_lt (by omega)
    subst he
    rw [if_neg hm, unpack_subnormal (by simp) (by rw [unpackMantissa_packComponents, hmv]) h.pos,
      unpackSign_packComponents, hsign]

/-- Negation turns the sign over and keeps the rest. -/
theorem neg_assemble (h : Representable m e) : -assemble .positive h = assemble .negative h := by
  have hneg : -assemble .positive h = .ofModel (.pack (assemble .positive h).toModel.unpack.neg) :=
    rfl
  rw [hneg, unpack_assemble]
  rfl

/-! ## The fields of a float -/

open Number (exponentField fractionField isNegative)

def bits (x : Float) : BitVec Format.binary64.numBits :=
  x.toBits.toBitVec

/-- Floats are told apart by their bits. -/
theorem ext_bits {x y : Float} (h : bits x = bits y) : x = y := by
  rcases x with ⟨⟨⟨b⟩, _⟩⟩
  rcases y with ⟨⟨⟨b'⟩, _⟩⟩
  cases h
  rfl

theorem exponentField_eq (x : Float) : exponentField x = (unpackExponent (bits x)).toNat :=
  toNat_unpackExponent.symm

theorem fractionField_eq (x : Float) : fractionField x = (unpackMantissa (bits x)).toNat :=
  toNat_unpackMantissa.symm

def significand (x : Float) : ℕ :=
  if exponentField x = 0 then fractionField x else fractionField x + 2 ^ 52

/-- The exponent that goes with the mantissa. -/
def scale (x : Float) : ℤ :=
  (if exponentField x = 0 then 1 else exponentField x : ℕ) - 1075

def sign (x : Float) : Sign :=
  if isNegative x then .negative else .positive

/-- The sign bit tells. -/
theorem isNegative_iff (x : Float) : isNegative x = true ↔ unpackSign (bits x) = 1#1 := by
  have hshift : (x.toBits >>> 63).toNat = x.toBits.toNat / 2 ^ 63 := by
    rw [UInt64.toNat_shiftRight]
    exact Nat.shiftRight_eq_div_pow _ _
  have hbits : (bits x).toNat = x.toBits.toNat := rfl
  have hlt := x.toBits.toNat_lt
  have hone : (1 : UInt64).toNat = 1 := rfl
  have hone' : (1#1).toNat = 1 := rfl
  rw [isNegative, beq_iff_eq, ← UInt64.toNat_inj, hshift, ← BitVec.toNat_inj, toNat_unpackSign,
    hbits, hone, hone']
  omega

/-- The sign of a float is the one in its bits. -/
theorem sign_eq (x : Float) : sign x = Sign.ofBitVec (unpackSign (bits x)) := by
  have hbit : ∀ v : BitVec 1, (if v = 1#1 then Sign.negative else .positive) = Sign.ofBitVec v := by
    intro v
    rcases BitVec.eq_zero_or_eq_one v with rfl | rfl <;> rfl
  rw [sign, ← hbit]
  simp only [isNegative_iff]

theorem fractionField_lt (x : Float) : fractionField x < 2 ^ 52 :=
  Nat.mod_lt _ (by decide)

theorem exponentField_lt (x : Float) : exponentField x < 2 ^ 11 :=
  Nat.mod_lt _ (by decide)

/-- A full exponent field is kept for infinities and NaN. -/
theorem exponentField_ne {x : Float} (hnan : x.isNaN = false) (hinf : x.isInf = false) :
    exponentField x ≠ 2047 := by
  intro hfield
  have hones : unpackExponent (bits x) = -1#11 :=
    BitVec.eq_of_toNat_eq ((exponentField_eq x).symm.trans hfield)
  have hnan' : (UnpackedFloat.unpack Format.binary64 (bits x)).isNaN = false := hnan
  have hinf' : (UnpackedFloat.unpack Format.binary64 (bits x)).isInf = false := hinf
  rw [UnpackedFloat.unpack] at hnan' hinf'
  simp only [if_pos hones] at hnan' hinf'
  split at hnan' <;> simp_all [UnpackedFloat.isNaN, UnpackedFloat.isInf]

/-- The zeros are the floats with empty fields. -/
theorem beq_zero_iff {x : Float} :
    (x == 0.0) = true ↔ exponentField x = 0 ∧ fractionField x = 0 := by
  have hbeq : (x == 0.0) =
      (UnpackedFloat.unpack Format.binary64 (bits x)).beq (.zero .positive) := rfl
  have hexp : unpackExponent (bits x) = 0#11 ↔ exponentField x = 0 := by
    rw [exponentField_eq, ← BitVec.toNat_inj]
    rfl
  have hmant : unpackMantissa (bits x) = 0#52 ↔ fractionField x = 0 := by
    rw [fractionField_eq, ← BitVec.toNat_inj]
    rfl
  have hzero : ∀ u : UnpackedFloat, u.beq (.zero .positive) = true ↔ ∃ s, u = .zero s := by
    intro u
    cases u with
    | infinity s => cases s <;> simp [UnpackedFloat.beq, UnpackedFloat.compare]
    | notANumber => simp [UnpackedFloat.beq, UnpackedFloat.compare]
    | zero s => simp [UnpackedFloat.beq, UnpackedFloat.compare]
    | finite s m e hpos => cases s <;> simp [UnpackedFloat.beq, UnpackedFloat.compare]
  rw [hbeq, hzero, ← hexp, ← hmant, UnpackedFloat.unpack]
  dsimp only
  split
  · -- A field of ones stands for an infinity or a NaN.
    rename_i hones
    have hne : ¬ unpackExponent (bits x) = 0#11 := by
      rw [hones]
      decide
    split <;> simp [hne]
  · split
    · rename_i hempty
      split <;> simp_all
    · rename_i hempty
      simp [hempty]

/-- A finite float other than zero has its leading bit, or the least exponent. -/
theorem representable {x : Float} (hnan : x.isNaN = false) (hinf : x.isInf = false)
    (hzero : (x == 0.0) = false) : Representable (significand x) (scale x) := by
  have hfield := exponentField_ne hnan hinf
  have hfield' := exponentField_lt x
  have hfraction := fractionField_lt x
  have hfields : ¬ (exponentField x = 0 ∧ fractionField x = 0) := by
    rw [← beq_zero_iff, hzero]
    decide
  rw [significand, scale]
  by_cases hexp : exponentField x = 0
  · rw [if_pos hexp, if_pos hexp]
    exact ⟨⟨by omega, by omega, by omega, by omega⟩, by omega⟩
  · rw [if_neg hexp, if_neg hexp]
    exact ⟨⟨by omega, by omega, by omega, by omega⟩, by omega⟩

/-- Every finite float other than zero is assembled from its fields. -/
theorem eq_assemble (x : Float) (h : Representable (significand x) (scale x)) :
    x = assemble (sign x) h := by
  have hfraction := fractionField_lt x
  have hfield := exponentField_lt x
  -- The exponent field is empty exactly if there is no leading bit.
  have hev : exponentField x =
      (if 2 ^ 52 ≤ significand x then BitVec.ofNat 11 (scale x + 1075).toNat else 0#11).toNat := by
    by_cases hexp : exponentField x = 0
    · have hm : ¬ 2 ^ 52 ≤ significand x := by
        rw [significand, if_pos hexp]
        omega
      rw [if_neg hm, hexp]
      rfl
    · have hm : 2 ^ 52 ≤ significand x := by
        rw [significand, if_neg hexp]
        omega
      rw [if_pos hm, BitVec.toNat_ofNat, scale, if_neg hexp]
      omega
  have hmv : fractionField x = (BitVec.ofNat 52 (significand x)).toNat := by
    rw [BitVec.toNat_ofNat, significand]
    split <;> omega
  refine ext_bits ?_
  calc bits x
      = packComponents Format.binary64 (Sign.ofBitVec (unpackSign (bits x)))
          (unpackExponent (bits x)) (unpackMantissa (bits x)) := packComponents_unpack.symm
    _ = packComponents Format.binary64 (sign x)
          (if 2 ^ 52 ≤ significand x then BitVec.ofNat 11 (scale x + 1075).toNat else 0#11)
          (BitVec.ofNat 52 (significand x)) := by
        rw [← sign_eq, BitVec.eq_of_toNat_eq ((exponentField_eq x).symm.trans hev),
          BitVec.eq_of_toNat_eq ((fractionField_eq x).symm.trans hmv)]
    _ = bits (assemble (sign x) h) := (pack_eq h).symm

/-- There are two zeros, told apart by their sign. -/
theorem eq_zero_of_beq {x : Float} (h : (x == 0.0) = true) :
    x = if isNegative x then -0.0 else 0.0 := by
  rcases beq_zero_iff.1 h with ⟨hexp, hfraction⟩
  have hev : unpackExponent (bits x) = 0#11 :=
    BitVec.eq_of_toNat_eq ((exponentField_eq x).symm.trans hexp)
  have hmv : unpackMantissa (bits x) = 0#52 :=
    BitVec.eq_of_toNat_eq ((fractionField_eq x).symm.trans hfraction)
  have hbits : bits x = packComponents Format.binary64 (sign x) 0#11 0#52 := by
    rw [sign_eq, ← hev, ← hmv]
    exact packComponents_unpack.symm
  refine ext_bits (hbits.trans ?_)
  rw [sign]
  split <;> decide +kernel

/-- Only a full exponent field with a fraction is a NaN. -/
theorem isNaN_unpack_packComponents (s : Sign) (ev : BitVec 11) (mv : BitVec 52)
    (h : ev = -1#11 → mv = 0#52) :
    (UnpackedFloat.unpack Format.binary64
      (packComponents Format.binary64 s ev mv)).isNaN = false := by
  rw [UnpackedFloat.unpack]
  simp only [unpackExponent_packComponents, unpackMantissa_packComponents]
  split
  · rename_i hones
    rw [if_pos (h hones)]
    rfl
  · split
    · split <;> rfl
    · rfl

/-- Packing makes no NaN of anything else. -/
theorem isNaN_pack {u : UnpackedFloat} (h : u.isNaN = false) :
    (Float.ofModel (.pack u)).isNaN = false := by
  have hunpack : (Float.ofModel (.pack u)).isNaN =
      (UnpackedFloat.unpack Format.binary64 (UnpackedFloat.pack Format.binary64 u)).isNaN := rfl
  rw [hunpack]
  cases u with
  | notANumber => cases h
  | infinity s => exact isNaN_unpack_packComponents s _ _ fun _ => rfl
  | zero s => exact isNaN_unpack_packComponents s _ _ fun _ => rfl
  | finite s m e hpos =>
      rw [UnpackedFloat.pack]
      dsimp only
      split
      · exact isNaN_unpack_packComponents s _ _ fun _ => rfl
      · rename_i hsmall
        split
        · -- An exponent that fits is below the one of infinities and NaNs.
          refine isNaN_unpack_packComponents s _ _ fun hones => ?_
          have htoNat := congrArg BitVec.toNat hones
          rw [BitVec.toNat_ofNat, Nat.mod_eq_of_lt (by omega)] at htoNat
          have hones' : (-1#11).toNat = 2047 := rfl
          omega
        · exact isNaN_unpack_packComponents s _ _ fun hones => absurd hones (by decide)

end Rounding
end RegisterLisp
