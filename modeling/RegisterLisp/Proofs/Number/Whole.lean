import RegisterLisp.Number.Word
import RegisterLisp.Proofs.Number.Scientific

/-!
# Floats that are integers

A finite float is a rational number.  It is read as a word without loss if it is an integer that
fits, and a word is written as a float without loss up to a magnitude of `2 ^ 53`.  So the integers
from `-2 ^ 53` to `2 ^ 53 - 1` pass from floats to words and back unchanged.

* `rational? x`: the number that a finite `x` is.
* `integer x`: its integer part.
* `IsWhole x`: `x` is one of the integers above.
-/

namespace RegisterLisp
namespace Number

open Float.Model Float.Model.UnpackedFloat
open Rounding

variable {x : Float} {n : ℤ} {w : Int64}

/-! ## Values -/

def rational? (x : Float) : Option ℚ :=
  match x.toModel.unpack with
  | .zero _ => some 0
  | .finite s m e _ => some (s.apply m * 2 ^ e)
  | .infinity _ => none
  | .notANumber => none

/-- The integer part, rounded down; zero for a float that is not finite. -/
def integer (x : Float) : ℤ :=
  ((rational? x).getD 0).floor

/-- An integer is its own integer part. -/
theorem integer_of_rational? (h : rational? x = some (n : ℚ)) : integer x = n := by
  rw [integer, h, Option.getD_some, Rat.floor_intCast]

/-- A float that is an integer of at most 54 bits in two's complement. -/
structure IsWhole (x : Float) : Prop where
  exact : rational? x = some (integer x : ℚ)
  lower : -2 ^ 53 ≤ integer x
  upper : integer x < 2 ^ 53

instance : DecidablePred IsWhole := fun x =>
  decidable_of_iff
    (rational? x = some (integer x : ℚ) ∧ -2 ^ 53 ≤ integer x ∧ integer x < 2 ^ 53)
    ⟨fun h => ⟨h.1, h.2.1, h.2.2⟩, fun h => ⟨h.exact, h.lower, h.upper⟩⟩

/-- A zero of either sign is an integer, and the range is not symmetric. -/
example : IsWhole (-0.0) ∧ IsWhole (-9007199254740992.0) ∧ ¬ IsWhole 9007199254740992.0 ∧
    ¬ IsWhole 0.5 := by
  decide +kernel

/-- An integer of at most 54 bits is whole. -/
theorem isWhole_of_rational? (h : rational? x = some (n : ℚ)) (hlower : -2 ^ 53 ≤ n)
    (hupper : n < 2 ^ 53) : IsWhole x := by
  have hinteger := integer_of_rational? h
  refine ⟨?_, ?_, ?_⟩ <;> rw [hinteger] <;> assumption

/-! ## From floats to words -/

theorem cast_apply (s : Sign) (m : ℕ) : ((s.apply m : ℤ) : ℚ) = s.apply 1 * m := by
  cases s <;> simp [Sign.apply]

/-- A mantissa that is shifted to the exponent zero loses no bits if its value is an integer. -/
theorem roundToInt_eq (s : Sign) {m N : ℕ} {e : ℤ} (h : (m : ℚ) * 2 ^ e = N) :
    roundToInt s m e = s.apply N := by
  rcases hdecreased : decreaseExponent m e 0 with ⟨M, E⟩
  have hE : E = e - (e - 0).toNat := (congrArg Prod.snd hdecreased).symm
  have hvalue := decreaseExponent_value m e 0
  rw [hdecreased, h] at hvalue
  have hshift : (N : ℚ) / 2 ^ E / 2 ^ (0 - E).toNat = N := by
    have hcast : ((0 - E).toNat : ℤ) = -E := by omega
    rw [div_div, ← zpow_natCast, hcast, ← zpow_add₀ (by norm_num), add_neg_cancel, zpow_zero,
      div_one]
  have happ : Approximates M E .exact N := hvalue ▸ approximates_exact M E
  have hdescribes := happ.shiftRight (0 - E).toNat
  rw [hshift] at hdescribes
  rw [roundToInt, hdecreased]
  -- What is left of the mantissa is the integer part of `N`.
  refine congrArg (fun k : ℕ => s.apply k) (Nat.le_antisymm ?_ (Nat.le_of_lt_succ ?_))
  · exact_mod_cast hdescribes.mantissa_le
  · exact_mod_cast hdescribes.lt_mantissa

/-- Clamping does not touch what is in range. -/
theorem toInt_unpack (h : rational? x = some (n : ℚ)) (low high : ℤ) :
    x.toModel.unpack.toInt low high = n := by
  unfold rational? at h
  cases hx : x.toModel.unpack with
  | zero s =>
      simp only [hx, Option.some.injEq] at h
      exact_mod_cast h
  | finite s m e hpos =>
      simp only [hx, Option.some.injEq] at h
      -- The mantissa has no sign, so it is compared with the integer without its sign.
      have hmagnitude : (m : ℚ) * 2 ^ e = n.natAbs := by
        have hone : |((s.apply 1 : ℤ) : ℚ)| = 1 := by cases s <;> simp [Sign.apply]
        have hnonneg : (0 : ℚ) ≤ m * 2 ^ e := by positivity
        calc (m : ℚ) * 2 ^ e = |((s.apply m : ℤ) : ℚ) * 2 ^ e| := by
              rw [cast_apply, mul_assoc, abs_mul, hone, one_mul, abs_of_nonneg hnonneg]
          _ = n.natAbs := by rw [h, Nat.cast_natAbs, Int.cast_abs]
      have hsigned : s.apply n.natAbs = n := by
        rw [cast_apply, mul_assoc, hmagnitude, ← cast_apply] at h
        exact_mod_cast h
      exact (roundToInt_eq s hmagnitude).trans hsigned
  | infinity s => simp [hx] at h
  | notANumber => simp [hx] at h

/-- An integer in range is converted to the word with that value. -/
theorem toInt_toWord (h : rational? x = some (n : ℚ)) (hlower : -2 ^ 63 ≤ n)
    (hupper : n < 2 ^ 63) : (toWord x).toInt = n := by
  have hmin : Int64.minValue.toInt = -2 ^ 63 := rfl
  have hmax : Int64.maxValue.toInt = 2 ^ 63 - 1 := rfl
  rw [toWord, Float.Model.toInt64, UnpackedFloat.toInt64, toInt_unpack h]
  exact Int64.toInt_ofIntClamp (by omega) (by omega)

theorem IsWhole.toInt_toWord (h : IsWhole x) : (toWord x).toInt = integer x := by
  have hlower := h.lower
  have hupper := h.upper
  exact Number.toInt_toWord h.exact (by omega) (by omega)

/-! ## From words to floats -/

/-- The number that a float with given parts is. -/
theorem rational?_assemble {m : ℕ} {e : ℤ} (s : Sign) (h : Representable m e) :
    rational? (assemble s h) = some (((s.apply m : ℤ) : ℚ) * 2 ^ e) := by
  rw [rational?, unpack_assemble]

/-- An integer of up to 53 bits is not rounded. -/
theorem rational?_round (s : Sign) {N : ℕ} (hN : 0 < N) (hle : N ≤ 2 ^ 53) :
    rational? (.ofModel (.pack (round Format.binary64 s N 0))) = some ((s.apply N : ℤ) : ℚ) := by
  have hlog : N.log2 < 54 := (Nat.log2_lt hN.ne').2 (by omega)
  have h := representable_leadingBits hN (by omega)
  have hdvd := two_pow_log2_dvd hN hle
  rw [round_eq s hN hdvd h]
  refine (rational?_assemble s h).trans ?_
  rw [cast_apply, mul_assoc, leadingBits_value hdvd, ← cast_apply]

theorem rational?_ofWord (h : w.toInt.natAbs ≤ 2 ^ 53) :
    rational? (ofWord w) = some (w.toInt : ℚ) := by
  have hmodel : ofWord w = .ofModel (.pack (normalize Format.binary64 w.toInt 0 .positive)) := rfl
  rw [hmodel, UnpackedFloat.normalize]
  rcases lt_trichotomy w.toInt 0 with hneg | hzero | hpos
  · have hcast : Sign.negative.apply ((-w.toInt).toNat : ℤ) = w.toInt := by
      rw [Sign.apply]
      omega
    rw [Int.compare_eq_lt.2 hneg]
    refine (rational?_round .negative (by omega) (by omega)).trans ?_
    rw [hcast]
  · rw [hzero]
    decide +kernel
  · have hcast : Sign.positive.apply (w.toInt.toNat : ℤ) = w.toInt := by
      rw [Sign.apply]
      omega
    rw [Int.compare_eq_gt.2 hpos]
    refine (rational?_round .positive (by omega) (by omega)).trans ?_
    rw [hcast]

/-- A word of at most 54 bits becomes the same integer. -/
theorem isWhole_ofWord (hlower : -2 ^ 53 ≤ w.toInt) (hupper : w.toInt < 2 ^ 53) :
    IsWhole (ofWord w) ∧ integer (ofWord w) = w.toInt := by
  have h : rational? (ofWord w) = some (w.toInt : ℚ) := rational?_ofWord (by omega)
  exact ⟨isWhole_of_rational? h hlower hupper, integer_of_rational? h⟩

end Number
end RegisterLisp
