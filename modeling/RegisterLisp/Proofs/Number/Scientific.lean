import RegisterLisp.Number.Parse
import RegisterLisp.Proofs.Number.Packing

/-!
# Reading decimals

A decimal `c * 10 ^ k` in the rounding interval of a float is read as that float
(`toFloat_eq_assemble`).  A decimal with few digits and a small exponent is read by one operation on
floats, where both operands are exact; any other decimal is multiplied or divided out first.  All of
these cases come down to a product or a quotient that is rounded once (`mul_eq`, `div_eq`).
-/

namespace RegisterLisp
namespace Rounding

open Float.Model Float.Model.UnpackedFloat

variable {m n m₁ m₂ : ℕ} {e e₁ e₂ : ℤ} {s₁ s₂ : Sign}

/-! ## Products and quotients -/

/-- A product is rounded once, from the exact product of the mantissas. -/
theorem mul_eq (hc : Canonical m e) (h₁ : 0 < m₁) (h₂ : 0 < m₂) (hbits : 2 ^ 52 ≤ m₁ * m₂)
    (hr : RoundsTo (m₁ * 2 ^ e₁ * (m₂ * 2 ^ e₂)) m e) :
    UnpackedFloat.mul Format.binary64 (.finite s₁ m₁ e₁ h₁) (.finite s₂ m₂ e₂ h₂) =
      .finite (s₁ * s₂) m e hc.pos := by
  have hvalue : (m₁ : ℚ) * 2 ^ e₁ * (m₂ * 2 ^ e₂) = (m₁ * m₂ : ℕ) * 2 ^ (e₁ + e₂) := by
    rw [zpow_add₀ (by norm_num)]
    push_cast
    ring
  have hlog : 52 ≤ (m₁ * m₂).log2 := (Nat.le_log2 (by positivity)).2 hbits
  rw [hvalue] at hr
  refine roundWithAccuracy_eq hc hr _ (approximates_exact _ _) ?_
  rw [targetExponent_eq, totalExponent]
  omega

/-- The remainder of a division says where the quotient lies. -/
theorem describes_quotient (a : ℕ) {d : ℕ} (hd : 0 < d) :
    Describes (ExtendedMantissa.ofMantissaAndAccuracy (a / d) (accuracyOfFraction (a % d) d))
      (a / d) := by
  have hd' : (0 : ℚ) < d := by exact_mod_cast hd
  have hsplit : (a : ℚ) / d = (a / d : ℕ) + (a % d : ℕ) / d := by
    rw [div_eq_iff hd'.ne', add_mul, div_mul_cancel₀ _ hd'.ne']
    exact_mod_cast (Nat.div_add_mod' a d).symm
  have hlt : ((a % d : ℕ) : ℚ) / d < 1 := by
    rw [div_lt_one hd']
    exact_mod_cast Nat.mod_lt a hd
  generalize a / d = quotient at hsplit ⊢
  generalize a % d = rest at hsplit hlt ⊢
  rw [hsplit, accuracyOfFraction]
  by_cases hzero : rest = 0
  · subst hzero
    exact Describes.of_eq (by simp [ExtendedMantissa.ofMantissaAndAccuracy]) rfl
  · have hpos : (0 : ℚ) < rest / d := by positivity
    rw [if_neg hzero]
    -- Twice the rest tells on which side of the middle the quotient lies.
    cases hcompare : compare (2 * rest) d with
    | lt =>
        have hhalf : (rest : ℚ) / d < 1 / 2 := by
          rw [div_lt_div_iff₀ hd' two_pos, one_mul, mul_comm]
          exact_mod_cast Nat.compare_eq_lt.1 hcompare
        refine Describes.of_between ?_ ?_ rfl <;>
          simp only [ExtendedMantissa.ofMantissaAndAccuracy, lowEnd_false] <;> linarith
    | eq =>
        have hhalf : (rest : ℚ) / d = 1 / 2 := by
          rw [div_eq_div_iff hd'.ne' two_ne_zero, one_mul, mul_comm]
          exact_mod_cast Nat.compare_eq_eq.1 hcompare
        exact Describes.of_eq (by simp [ExtendedMantissa.ofMantissaAndAccuracy, hhalf]) rfl
    | gt =>
        have hhalf : (1 : ℚ) / 2 < rest / d := by
          rw [div_lt_div_iff₀ two_pos hd', one_mul, mul_comm]
          exact_mod_cast Nat.compare_eq_gt.1 hcompare
        refine Describes.of_between ?_ ?_ rfl <;>
          simp only [ExtendedMantissa.ofMantissaAndAccuracy, lowEnd_true] <;> linarith

/-- A quotient is rounded once, too, from one with enough bits and a sticky bit. -/
theorem div_eq (hc : Canonical m e) (h₁ : 0 < m₁) (h₂ : 0 < m₂)
    (hr : RoundsTo (m₁ * 2 ^ e₁ / (m₂ * 2 ^ e₂)) m e) :
    UnpackedFloat.div Format.binary64 (.finite s₁ m₁ e₁ h₁) (.finite s₂ m₂ e₂ h₂) =
      .finite (s₁ / s₂) m e hc.pos := by
  have hlow := (approximates_exact m₁ e₁).le_of_mantissa h₁.ne'
  have hhigh := (approximates_exact m₂ e₂).lt_of_totalExponent
  rw [UnpackedFloat.div, divCore]
  dsimp only
  -- The dividend is shifted by `k` places, which lowers the exponent of the quotient to `E`.
  generalize totalExponent m₁ e₁ = t₁ at hlow ⊢
  generalize totalExponent m₂ e₂ = t₂ at hhigh ⊢
  generalize hE : min (e₁ - e₂) (Format.binary64.targetExponent (t₁ - t₂)) = E
  have hshift : ((e₁ - e₂ - E).toNat : ℤ) = e₁ - e₂ - E := Int.toNat_of_nonneg (by omega)
  generalize (e₁ - e₂ - E).toNat = k at hshift ⊢
  have happ : Approximates ((m₁ <<< k) / m₂) E (accuracyOfFraction ((m₁ <<< k) % m₂) m₂)
      (m₁ * 2 ^ e₁ / (m₂ * 2 ^ e₂)) := by
    have hquotient : (m₁ : ℚ) * 2 ^ e₁ / (m₂ * 2 ^ e₂) / 2 ^ E = (m₁ <<< k : ℕ) / m₂ := by
      have hpower : (2 : ℚ) ^ e₁ = 2 ^ k * 2 ^ e₂ * 2 ^ E := by
        rw [← zpow_natCast, ← zpow_add₀ (by norm_num), ← zpow_add₀ (by norm_num), hshift]
        congr 1
        omega
      rw [Nat.shiftLeft_eq, hpower]
      push_cast
      field_simp
    rw [Approximates, hquotient]
    exact describes_quotient _ h₂
  refine roundWithAccuracy_eq hc hr _ happ ?_
  -- The quotient has at least as many binary places as the exponents of its operands say.
  have hplaces : t₁ - t₂ ≤ totalExponent ((m₁ <<< k) / m₂) E := by
    have hbelow : (2 : ℚ) ^ (t₁ - 1 - t₂) ≤ m₁ * 2 ^ e₁ / (m₂ * 2 ^ e₂) := by
      rw [zpow_sub₀ (by norm_num)]
      gcongr
    have hlt := (zpow_lt_zpow_iff_right₀ (by norm_num)).1
      (lt_of_le_of_lt hbelow happ.lt_of_totalExponent)
    omega
  rw [targetExponent_eq] at hE ⊢
  omega

/-! ## Integers that are floats -/

/-- The 53 leading bits of a number. -/
def leadingBits (n : ℕ) : ℕ :=
  n * 2 ^ 52 / 2 ^ n.log2

theorem le_leadingBits (hn : 0 < n) : 2 ^ 52 ≤ leadingBits n := by
  rw [leadingBits, Nat.le_div_iff_mul_le (by positivity), mul_comm]
  exact Nat.mul_le_mul_right _ (Nat.log2_self_le hn.ne')

/-- An integer of up to 53 bits is a float. -/
theorem representable_leadingBits (hn : 0 < n) (hlog : n.log2 ≤ 1023) :
    Representable (leadingBits n) (n.log2 - 52) := by
  have hlow := le_leadingBits hn
  have hhigh : leadingBits n < 2 ^ 53 := by
    rw [leadingBits, Nat.div_lt_iff_lt_mul (by positivity)]
    calc n * 2 ^ 52 < 2 ^ (n.log2 + 1) * 2 ^ 52 := by
          gcongr
          exact Nat.lt_log2_self
      _ = 2 ^ 53 * 2 ^ n.log2 := by ring
  exact ⟨⟨by omega, hhigh, by omega, Or.inl hlow⟩, by omega⟩

/-- No bits are lost if the rest is zero. -/
theorem leadingBits_value (hdvd : 2 ^ n.log2 ∣ n * 2 ^ 52) :
    (leadingBits n : ℚ) * 2 ^ ((n.log2 : ℤ) - 52) = n := by
  have hexact : leadingBits n * 2 ^ n.log2 = n * 2 ^ 52 := Nat.div_mul_cancel hdvd
  have hexact : (leadingBits n : ℚ) * 2 ^ n.log2 = n * 2 ^ 52 := by exact_mod_cast hexact
  rw [zpow_sub₀ (by norm_num), zpow_natCast, ← mul_div_assoc, hexact]
  norm_num

/-- Up to `2 ^ 53` there are no bits behind the leading ones. -/
theorem two_pow_log2_dvd (hn : 0 < n) (hle : n ≤ 2 ^ 53) : 2 ^ n.log2 ∣ n * 2 ^ 52 := by
  rcases hle.lt_or_eq with hlt | rfl
  · have hlog : n.log2 < 53 := (Nat.log2_lt hn.ne').2 hlt
    exact Dvd.dvd.mul_left (Nat.pow_dvd_pow 2 (by omega)) n
  · rw [Nat.log2_two_pow]
    exact Nat.dvd_mul_right _ _

/-- Shifting a mantissa to the left makes up for a smaller exponent. -/
theorem decreaseExponent_value (n : ℕ) (e E : ℤ) :
    ((decreaseExponent n e E).1 : ℚ) * 2 ^ (decreaseExponent n e E).2 = n * 2 ^ e := by
  rw [decreaseExponent]
  dsimp only
  rw [Nat.shiftLeft_eq, zpow_sub₀ (by norm_num), zpow_natCast]
  push_cast
  field_simp

/-- An integer without bits behind its leading ones is not rounded. -/
theorem round_eq (s : Sign) (hn : 0 < n) (hdvd : 2 ^ n.log2 ∣ n * 2 ^ 52)
    (h : Representable (leadingBits n) (n.log2 - 52)) :
    round Format.binary64 s n 0 = .finite s (leadingBits n) (n.log2 - 52) h.pos := by
  have htarget : Format.binary64.targetExponent (totalExponent n 0) = n.log2 - 52 := by
    rw [targetExponent_eq, totalExponent]
    omega
  have hr : RoundsTo n (leadingBits n) (n.log2 - 52) := by
    have hexact := RoundsTo.exact (leadingBits n) (n.log2 - 52)
    rwa [leadingBits_value hdvd] at hexact
  rcases hdecreased : decreaseExponent n 0 (n.log2 - 52) with ⟨M, E⟩
  have hE : E = 0 - (0 - ((n.log2 : ℤ) - 52)).toNat := (congrArg Prod.snd hdecreased).symm
  have hvalue := decreaseExponent_value n 0 (n.log2 - 52)
  rw [hdecreased, zpow_zero, mul_one] at hvalue
  have happ : Approximates M E .exact n := hvalue ▸ approximates_exact M E
  -- The shifted mantissa has no fewer binary places before the point than `n`.
  have hplaces : (n.log2 : ℤ) < totalExponent M E := by
    have hlog : (2 : ℚ) ^ (n.log2 : ℤ) ≤ n := by exact_mod_cast Nat.log2_self_le hn.ne'
    exact (zpow_lt_zpow_iff_right₀ (by norm_num)).1 (lt_of_le_of_lt hlog happ.lt_of_totalExponent)
  rw [UnpackedFloat.round, htarget, hdecreased]
  refine roundWithAccuracy_eq h.toCanonical hr s happ ?_
  rw [targetExponent_eq]
  omega

/-- Such an integer is converted without rounding. -/
theorem toFloat_toUInt64 (hn : 0 < n) (hlt : n < 2 ^ 53)
    (h : Representable (leadingBits n) (n.log2 - 52)) :
    n.toUInt64.toFloat = assemble .positive h := by
  have htoNat : n.toUInt64.toNat = n := by
    rw [Nat.toUInt64_eq, UInt64.toNat_ofNat']
    omega
  have hmodel : n.toUInt64.toFloat = .ofModel (.pack
      (UnpackedFloat.normalize Format.binary64 n.toUInt64.toNat 0 .positive)) := rfl
  have hcompare : compare (n : ℤ) 0 = .gt := Int.compare_eq_gt.2 (by omega)
  rw [hmodel, htoNat, UnpackedFloat.normalize, hcompare]
  dsimp only
  rw [Int.toNat_natCast, round_eq .positive hn (two_pow_log2_dvd hn hlt.le) h]
  rfl

/-! ## Powers of ten -/

/-- The powers of ten in the table are exact. -/
theorem powersOfTen_exact : ∀ k < 23, 2 ^ (10 ^ k).log2 ∣ 10 ^ k * 2 ^ 52 ∧
    (10 ^ k).log2 ≤ 1023 ∧
    (Float.exactlyRepresentablePowersOfTen[k]?).map bits =
      some (packComponents Format.binary64 .positive
        (BitVec.ofNat 11 (((10 ^ k).log2 : ℤ) - 52 + 1075).toNat)
        (BitVec.ofNat 52 (leadingBits (10 ^ k)))) := by
  decide +kernel

/-- The table holds the first 23 powers of ten exactly. -/
theorem powersOfTen_eq {k : ℕ} (hk : k < 23)
    (h : Representable (leadingBits (10 ^ k)) ((10 ^ k).log2 - 52)) :
    Float.exactlyRepresentablePowersOfTen[k]? = some (assemble .positive h) := by
  rcases Option.map_eq_some_iff.1 (powersOfTen_exact k hk).2.2 with ⟨x, hx, hbits⟩
  rw [hx]
  congr 1
  refine ext_bits (hbits.trans ?_)
  have hpack := pack_eq (s := .positive) h
  rw [if_pos (le_leadingBits (by positivity))] at hpack
  exact hpack.symm

/-! ## Decimals -/

/-- The product of two floats is the float that their product rounds to. -/
theorem assemble_mul (h₁ : Representable m₁ e₁) (h₂ : Representable m₂ e₂) (h : Representable m e)
    (hbits : 2 ^ 52 ≤ m₁ * m₂) (hr : RoundsTo (m₁ * 2 ^ e₁ * (m₂ * 2 ^ e₂)) m e) :
    assemble s₁ h₁ * assemble s₂ h₂ = assemble (s₁ * s₂) h := by
  have hmul : assemble s₁ h₁ * assemble s₂ h₂ = .ofModel (.pack (UnpackedFloat.mul Format.binary64
      (assemble s₁ h₁).toModel.unpack (assemble s₂ h₂).toModel.unpack)) := rfl
  rw [hmul, unpack_assemble, unpack_assemble, mul_eq h.toCanonical _ _ hbits hr]
  rfl

/-- So is their quotient. -/
theorem assemble_div (h₁ : Representable m₁ e₁) (h₂ : Representable m₂ e₂) (h : Representable m e)
    (hr : RoundsTo (m₁ * 2 ^ e₁ / (m₂ * 2 ^ e₂)) m e) :
    assemble s₁ h₁ / assemble s₂ h₂ = assemble (s₁ / s₂) h := by
  have hdiv : assemble s₁ h₁ / assemble s₂ h₂ = .ofModel (.pack (UnpackedFloat.div Format.binary64
      (assemble s₁ h₁).toModel.unpack (assemble s₂ h₂).toModel.unpack)) := rfl
  rw [hdiv, unpack_assemble, unpack_assemble, div_eq h.toCanonical _ _ hr]
  rfl

/-- A decimal near a float is neither so large nor so small that it is not multiplied out. -/
theorem exponent_bounds {c : ℕ} {k : ℤ} (h : Representable m e) (hr : RoundsTo (c * 10 ^ k) m e) :
    0 < c ∧ k ≤ 2 ^ 11 ∧ -(2 ^ 11 + (c.log2 : ℤ)) ≤ k := by
  have hmin := h.minExponent_le
  have hmax := h.le_maxExponent
  have hlow := hr.half_le h.toCanonical
  have hhigh := hr.lt_two_pow h.toCanonical
  have hc : 0 < c := by
    by_contra hzero
    obtain rfl : c = 0 := by omega
    have hpos : (0 : ℚ) < 2 ^ (e - 1) := by positivity
    rw [Nat.cast_zero, zero_mul] at hlow
    linarith
  have hc' : (1 : ℚ) ≤ c := by exact_mod_cast hc
  refine ⟨hc, ?_, ?_⟩
  · -- A larger exponent would take the decimal beyond the largest float.
    by_contra hk
    have hten : (2 : ℚ) ^ k ≤ c * 10 ^ k :=
      calc (2 : ℚ) ^ k ≤ 10 ^ k := zpow_le_zpow_left₀ (by omega) (by norm_num) (by norm_num)
        _ ≤ c * 10 ^ k := le_mul_of_one_le_left (by positivity) hc'
    have hlt := (zpow_lt_zpow_iff_right₀ (by norm_num)).1 (lt_of_le_of_lt hten hhigh)
    omega
  · -- A smaller one would take it below half of the least positive float.
    by_contra hk
    have hlog : (c : ℚ) < 2 ^ (c.log2 + 1) := by exact_mod_cast Nat.lt_log2_self
    have hten : (10 : ℚ) ^ k ≤ 2 ^ k := by
      have hneg : (2 : ℚ) ^ (-k) ≤ 10 ^ (-k) :=
        zpow_le_zpow_left₀ (by omega) (by norm_num) (by norm_num)
      rw [zpow_neg, zpow_neg] at hneg
      exact (inv_le_inv₀ (by positivity) (by positivity)).1 hneg
    have hsmall : (c : ℚ) * 10 ^ k < 2 ^ ((c.log2 : ℤ) + 1 + k) :=
      calc (c : ℚ) * 10 ^ k < 2 ^ (c.log2 + 1) * 10 ^ k := by gcongr
        _ ≤ 2 ^ (c.log2 + 1) * 2 ^ k := by gcongr
        _ = 2 ^ ((c.log2 : ℤ) + 1 + k) := by
            rw [zpow_add₀ (by norm_num)]
            norm_cast
    have hlt := (zpow_lt_zpow_iff_right₀ (by norm_num)).1 (lt_of_le_of_lt hlow hsmall)
    omega

theorem ten_zpow_of_nonneg {k : ℤ} (hk : 0 ≤ k) : (10 : ℚ) ^ k = (10 ^ k.toNat : ℕ) := by
  have htoNat : (k.toNat : ℤ) = k := Int.toNat_of_nonneg hk
  rw [Nat.cast_pow, Nat.cast_ofNat, ← zpow_natCast, htoNat]

theorem ten_zpow_of_neg {k : ℤ} (hk : ¬ 0 ≤ k) : (10 : ℚ) ^ k = ((10 ^ (-k).toNat : ℕ) : ℚ)⁻¹ := by
  rw [← ten_zpow_of_nonneg (by omega), ← zpow_neg, neg_neg]

/-- A decimal that is multiplied out is rounded once. -/
theorem ofScientific_eq {c : ℕ} {k : ℤ} (h : Representable m e) (hr : RoundsTo (c * 10 ^ k) m e) :
    UnpackedFloat.ofScientific Format.binary64 c k = .finite .positive m e h.pos := by
  rcases exponent_bounds h hr with ⟨hc, hhigh, hlow⟩
  rw [UnpackedFloat.ofScientific, dif_neg hc.ne', if_neg (by simpa using hhigh),
    if_neg (by simpa using hlow)]
  by_cases hk : 0 ≤ k
  · -- The coefficient is shifted first, so that the product has bits enough to be cut off.
    rw [if_pos hk]
    refine mul_eq h.toCanonical _ _ ?_ ?_
    · have hshift : 2 ^ 53 ≤ c <<< Format.binary64.mantissaBits := by
        rw [Nat.shiftLeft_eq]
        exact Nat.le_mul_of_pos_left _ hc
      calc 2 ^ 52 ≤ c <<< Format.binary64.mantissaBits := le_trans (by norm_num) hshift
        _ ≤ c <<< Format.binary64.mantissaBits * 10 ^ k.toNat :=
            Nat.le_mul_of_pos_right _ (by positivity)
    · have hvalue : ((c <<< Format.binary64.mantissaBits : ℕ) : ℚ)
          * 2 ^ (-(Format.binary64.mantissaBits : ℤ)) = c := by
        rw [Nat.shiftLeft_eq, zpow_neg, zpow_natCast]
        push_cast
        exact mul_inv_cancel_right₀ (by positivity) _
      rw [hvalue, zpow_zero, mul_one, ← ten_zpow_of_nonneg hk]
      exact hr
  · rw [if_neg hk]
    refine div_eq h.toCanonical hc _ ?_
    rw [ten_zpow_of_neg hk] at hr
    simpa [div_eq_mul_inv] using hr

/-- A decimal with few digits and a small exponent is a product or quotient of two exact floats. -/
theorem ofScientific_small {c : ℕ} {k : ℤ} (h : Representable m e) (hr : RoundsTo (c * 10 ^ k) m e)
    (hsmall : c < 2 ^ 53 ∧ k.natAbs ≤ 22) :
    Float.ofScientific c (decide (k < 0)) k.natAbs = assemble .positive h := by
  have hc := (exponent_bounds h hr).1
  have hlog : c.log2 < 53 := (Nat.log2_lt hc.ne').2 hsmall.1
  have hcoefficient := representable_leadingBits hc (by omega)
  have hcvalue := leadingBits_value (n := c) (Dvd.dvd.mul_left (Nat.pow_dvd_pow 2 (by omega)) c)
  rcases powersOfTen_exact k.natAbs (by omega) with ⟨hdvd, hlog', -⟩
  have hpower := representable_leadingBits (n := 10 ^ k.natAbs) (by positivity) hlog'
  have hpvalue := leadingBits_value hdvd
  rcases Array.getElem?_eq_some_iff.1 (powersOfTen_eq (by omega) hpower) with ⟨_, hget⟩
  rw [Float.ofScientific, dif_pos hsmall]
  dsimp only
  rw [hget, toFloat_toUInt64 hc hsmall.1 hcoefficient]
  by_cases hk : 0 ≤ k
  · rw [if_neg (by simpa using hk)]
    refine assemble_mul hcoefficient hpower h ?_ ?_
    · exact le_trans (le_leadingBits hc)
        (Nat.le_mul_of_pos_right _ hpower.pos)
    · have habs : k.natAbs = k.toNat := by omega
      rw [hcvalue, hpvalue, habs, ← ten_zpow_of_nonneg hk]
      exact hr
  · rw [if_pos (by simpa using hk)]
    refine assemble_div hcoefficient hpower h ?_
    have habs : k.natAbs = (-k).toNat := by omega
    rw [hcvalue, hpvalue, habs, div_eq_mul_inv, ← ten_zpow_of_neg hk]
    exact hr

/-- A decimal in the rounding interval of a float is read as that float. -/
theorem toFloat_eq_assemble {c : ℕ} {k : ℤ} (h : Representable m e)
    (hr : RoundsTo (c * 10 ^ k) m e) :
    (⟨c, k⟩ : Number.Numeral).toFloat = assemble .positive h := by
  rw [Number.Numeral.toFloat]
  dsimp only
  by_cases hsmall : c < 2 ^ 53 ∧ k.natAbs ≤ 22
  · exact ofScientific_small h hr hsmall
  · have hexponent :
        (if decide (k < 0) = true then Int.negOfNat k.natAbs else Int.ofNat k.natAbs) = k := by
      by_cases hk : k < 0
      · rw [if_pos (by simpa using hk), Int.negOfNat_eq, Int.ofNat_eq_natCast]
        omega
      · rw [if_neg (by simpa using hk), Int.ofNat_eq_natCast]
        omega
    rw [Float.ofScientific, dif_neg hsmall]
    dsimp only
    rw [hexponent, Float.Model.ofScientific, ofScientific_eq h hr]
    rfl

/-! ## What is never read -/

/-- Rounding makes no NaN. -/
theorem isNaN_roundWithAccuracy (s : Sign) (M : ℕ) (E : ℤ) (acc : Accuracy) :
    (roundWithAccuracy Format.binary64 s M E acc).isNaN = false := by
  rw [roundWithAccuracy]
  dsimp only
  split <;> rfl

/-- Nor does a product with a finite number that is not zero. -/
theorem isNaN_mul {u : UnpackedFloat} {s : Sign} {hpos : 0 < m} (hu : u.isFinite = true) :
    (UnpackedFloat.mul Format.binary64 u (.finite s m e hpos)).isNaN = false := by
  cases u with
  | notANumber => cases hu
  | infinity s => cases hu
  | zero s => rfl
  | finite s m e hpos => exact isNaN_roundWithAccuracy _ _ _ _

theorem isNaN_div {u : UnpackedFloat} {s : Sign} {hpos : 0 < m} (hu : u.isFinite = true) :
    (UnpackedFloat.div Format.binary64 u (.finite s m e hpos)).isNaN = false := by
  cases u with
  | notANumber => cases hu
  | infinity s => cases hu
  | zero s => rfl
  | finite s m e hpos => exact isNaN_roundWithAccuracy _ _ _ _

/-- So no numeral is read as a NaN. -/
theorem isNaN_ofScientific (c : ℕ) (k : ℤ) :
    (UnpackedFloat.ofScientific Format.binary64 c k).isNaN = false := by
  rw [UnpackedFloat.ofScientific]
  split
  · rfl
  · split
    · rfl
    · split
      · rfl
      · split
        · exact isNaN_mul rfl
        · exact isNaN_div rfl

theorem isFinite_toFloat_toUInt64 (hlt : n < 2 ^ 53) :
    n.toUInt64.toFloat.toModel.unpack.isFinite = true := by
  by_cases hn : n = 0
  · subst hn
    decide +kernel
  · have hpos : 0 < n := Nat.pos_of_ne_zero hn
    have hlog : n.log2 < 53 := (Nat.log2_lt hn).2 hlt
    rw [toFloat_toUInt64 hpos hlt (representable_leadingBits hpos (by omega)), unpack_assemble]
    rfl

/-- A numeral is never read as a NaN. -/
theorem isNaN_toFloat (a : Number.Numeral) : a.toFloat.isNaN = false := by
  rw [Number.Numeral.toFloat, Float.ofScientific]
  split
  · -- Two finite floats, the second not zero, have a product and a quotient.
    rename_i hsmall
    have hc := isFinite_toFloat_toUInt64 hsmall.1
    rcases powersOfTen_exact a.exponent.natAbs (by omega) with ⟨-, hlog, -⟩
    have hpower := representable_leadingBits (n := 10 ^ a.exponent.natAbs) (by positivity) hlog
    rcases Array.getElem?_eq_some_iff.1 (powersOfTen_eq (by omega) hpower) with ⟨_, hget⟩
    dsimp only
    rw [hget]
    split
    · refine isNaN_pack ?_
      rw [unpack_assemble]
      exact isNaN_div hc
    · refine isNaN_pack ?_
      rw [unpack_assemble]
      exact isNaN_mul hc
  · exact isNaN_pack (isNaN_ofScientific _ _)

end Rounding
end RegisterLisp
