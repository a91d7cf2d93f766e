import Mathlib

/-!
# Rounding to the nearest float

A result is rounded from a truncated mantissa and two bits that say where the rest lies.  Here the
mantissa and its bits are read as a description of an exact rational, and it is shown that a
rational in the rounding interval of a float is rounded to this float.

* `Describes em y`: `em` is `y` without its fraction, of which the bits of `em` tell whether it is
  zero, below, at or above one half.
* `NearestEven y n`: `n` is the integer nearest to `y`, and the even one if there are two.
* `Canonical m e`: `m * 2 ^ e` is written as the format asks for.
* `RoundsTo r m e`: `r` is in the rounding interval of `m * 2 ^ e`.
-/

namespace RegisterLisp
namespace Rounding

open Float.Model Float.Model.UnpackedFloat

variable {em : ExtendedMantissa} {y r : ℚ} {m n M : ℕ} {e E : ℤ} {acc : Accuracy}

/-! ## Truncated mantissas -/

def lowEnd (em : ExtendedMantissa) : ℚ :=
  em.mantissa + em.roundBit.toNat / 2

@[simp]
theorem lowEnd_false (k : ℕ) (sticky : Bool) : lowEnd ⟨k, false, sticky⟩ = k := by
  simp [lowEnd]

@[simp]
theorem lowEnd_true (k : ℕ) (sticky : Bool) : lowEnd ⟨k, true, sticky⟩ = k + 1 / 2 := by
  simp [lowEnd]

/-- The mantissa and its bits say where `y` lies. -/
structure Describes (em : ExtendedMantissa) (y : ℚ) : Prop where
  low : lowEnd em ≤ y
  high : y < lowEnd em + 1 / 2
  sticky : em.stickyBit = false ↔ y = lowEnd em

namespace Describes

theorem of_eq (hy : y = lowEnd em) (hsticky : em.stickyBit = false) : Describes em y :=
  ⟨hy.ge, by linarith, by simp [hsticky, hy]⟩

/-- A sticky bit says that something lies behind the round bit. -/
theorem of_between (hlow : lowEnd em < y) (hhigh : y < lowEnd em + 1 / 2)
    (hsticky : em.stickyBit = true) : Describes em y :=
  ⟨hlow.le, hhigh, by simp [hsticky, hlow.ne']⟩

/-- What is described is not below the mantissa. -/
theorem mantissa_le (h : Describes em y) : (em.mantissa : ℚ) ≤ y := by
  have hbit : (0 : ℚ) ≤ em.roundBit.toNat / 2 := by positivity
  linarith [h.low, lowEnd.eq_1 em]

/-- Nor is it a whole place above. -/
theorem lt_mantissa (h : Describes em y) : y < em.mantissa + 1 := by
  have hbit : (em.roundBit.toNat : ℚ) ≤ 1 := by exact_mod_cast Bool.toNat_le em.roundBit
  linarith [h.high, lowEnd.eq_1 em]

/-- Shifting by one halves what is described. -/
theorem shiftRightOne (h : Describes em y) : Describes em.shiftRightOne (y / 2) := by
  -- The bit shifted out becomes the round bit, so nothing moves but the binary point.
  have hlowEnd : lowEnd em.shiftRightOne = em.mantissa / 2 := by
    have hbit : (em.mantissa % 2 != 0).toNat = em.mantissa % 2 := by
      rcases Nat.mod_two_eq_zero_or_one em.mantissa with hmod | hmod <;> rw [hmod] <;> rfl
    have hsplit : (em.mantissa : ℚ) = 2 * (em.mantissa / 2 : ℕ) + (em.mantissa % 2 : ℕ) := by
      exact_mod_cast (Nat.div_add_mod em.mantissa 2).symm
    rw [lowEnd, ExtendedMantissa.shiftRightOne, hbit]
    linarith
  have hlow := h.mantissa_le
  have hhigh := h.lt_mantissa
  refine ⟨by linarith, by linarith, ?_⟩
  have hexact : y / 2 = em.mantissa / 2 ↔ em.roundBit = false ∧ y = lowEnd em := by
    cases hround : em.roundBit with
    | false => simp [lowEnd, hround]
    | true =>
        have hne : (em.mantissa : ℚ) < y := by
          have := h.low
          simp only [lowEnd, hround, Bool.toNat_true, Nat.cast_one] at this
          linarith
        simp [hne.ne']
  rw [hlowEnd, hexact, ← h.sticky, ExtendedMantissa.shiftRightOne, Bool.or_eq_false_iff]

/-- Shifting by `n` divides it by a power of two. -/
theorem shiftRight (h : Describes em y) (n : ℕ) : Describes (em >>> n) (y / 2 ^ n) := by
  induction n with
  | zero =>
      rw [pow_zero, div_one]
      exact h
  | succ n ih =>
      rw [pow_succ, ← div_div]
      exact ih.shiftRightOne

end Describes

/-! ## The nearest integer -/

/-- No integer is nearer to `y` than `n`, and `n` is even if another one is as near. -/
structure NearestEven (y : ℚ) (n : ℕ) : Prop where
  low : n - 1 / 2 ≤ y
  high : y ≤ n + 1 / 2
  tie : y = n - 1 / 2 ∨ y = n + 1 / 2 → n % 2 = 0

/-- There is only one such integer. -/
theorem NearestEven.unique (hm : NearestEven y m) (hn : NearestEven y n) : m = n := by
  have hcast : ∀ {a b : ℕ}, a < b → (a : ℚ) + 1 ≤ b := by
    intro a b hab
    exact_mod_cast hab
  have hle : ∀ {a b : ℕ}, NearestEven y a → NearestEven y b → a ≤ b := by
    intro a b ha hb
    by_contra hlt
    have hsucc := hcast (Nat.lt_of_not_le hlt)
    -- Both are as near, so they are neighbours and both even.
    have hya : y = a - 1 / 2 := by linarith [ha.low, hb.high]
    have hyb : y = b + 1 / 2 := by linarith [ha.low, hb.high]
    have hnext : a = b + 1 := by
      have : (a : ℚ) = (b + 1 : ℕ) := by
        push_cast
        linarith
      exact_mod_cast this
    have := ha.tie (Or.inl hya)
    have := hb.tie (Or.inr hyb)
    omega
  exact Nat.le_antisymm (hle hm hn) (hle hn hm)

/-- Within half a place no other integer is as near. -/
theorem nearestEven_of_lt (hlow : n - 1 / 2 < y) (hhigh : y < n + 1 / 2) : NearestEven y n := by
  refine ⟨hlow.le, hhigh.le, ?_⟩
  rintro (htie | htie) <;> linarith

/-- On the boundary the even one is taken. -/
theorem nearestEven_of_even (heven : n % 2 = 0) (hlow : n - 1 / 2 ≤ y) (hhigh : y ≤ n + 1 / 2) :
    NearestEven y n :=
  ⟨hlow, hhigh, fun _ => heven⟩

/-- The two bits are all that rounding has to know. -/
theorem Describes.nearestEven (h : Describes em y) : NearestEven y em.roundedMantissa := by
  rcases em with ⟨k, round, sticky⟩
  have hle := h.mantissa_le
  have hlt := h.lt_mantissa
  rcases h with ⟨hlow, hhigh, hsticky⟩
  cases round with
  | false =>
      -- Less than one half has been cut off.
      have hround : (⟨k, false, sticky⟩ : ExtendedMantissa).roundedMantissa = k := by
        cases sticky <;> rfl
      rw [lowEnd_false] at hhigh
      rw [hround]
      exact nearestEven_of_lt (by linarith) hhigh
  | true =>
      rw [lowEnd_true] at hlow hsticky
      cases sticky with
      | true =>
          -- More than one half has been cut off.
          have hround : (⟨k, true, true⟩ : ExtendedMantissa).roundedMantissa = k + 1 := rfl
          have hne : (k : ℚ) + 1 / 2 ≠ y := by
            intro heq
            exact absurd (hsticky.2 heq.symm) (by simp)
          have hhalf : (k : ℚ) + 1 / 2 < y := lt_of_le_of_ne hlow hne
          rw [hround]
          refine nearestEven_of_lt ?_ ?_ <;> push_cast <;> linarith
      | false =>
          -- A tie: adding the last bit makes the mantissa even.
          have hround : (⟨k, true, false⟩ : ExtendedMantissa).roundedMantissa = k + k % 2 := rfl
          have htie : y = k + 1 / 2 := hsticky.1 rfl
          have hbit : ((k % 2 : ℕ) : ℚ) ≤ 1 := by
            exact_mod_cast Nat.le_of_lt_succ (k.mod_lt two_pos)
          have hbit' : (0 : ℚ) ≤ (k % 2 : ℕ) := by positivity
          rw [hround]
          refine nearestEven_of_even (by omega) ?_ ?_ <;> push_cast <;> linarith

/-! ## Approximations -/

def Approximates (M : ℕ) (E : ℤ) (acc : Accuracy) (r : ℚ) : Prop :=
  Describes (ExtendedMantissa.ofMantissaAndAccuracy M acc) (r / 2 ^ E)

theorem mantissa_ofMantissaAndAccuracy (M : ℕ) (acc : Accuracy) :
    (ExtendedMantissa.ofMantissaAndAccuracy M acc).mantissa = M := by
  rcases acc with _ | ⟨_ | _ | _⟩ <;> rfl

theorem approximates_exact (M : ℕ) (E : ℤ) : Approximates M E .exact (M * 2 ^ E) := by
  have hcancel : (M : ℚ) * 2 ^ E / 2 ^ E = M := mul_div_cancel_right₀ _ (by positivity)
  rw [Approximates, hcancel]
  exact Describes.of_eq (lowEnd_false M false).symm rfl

namespace Approximates

/-- A truncated number is not above. -/
theorem low (h : Approximates M E acc r) : M * 2 ^ E ≤ r := by
  have hle := Describes.mantissa_le h
  rw [mantissa_ofMantissaAndAccuracy] at hle
  exact (le_div_iff₀ (by positivity)).1 hle

/-- And it is off by less than one place. -/
theorem high (h : Approximates M E acc r) : r < (M + 1) * 2 ^ E := by
  have hlt := Describes.lt_mantissa h
  rw [mantissa_ofMantissaAndAccuracy] at hlt
  exact (div_lt_iff₀ (by positivity)).1 hlt

/-- The total exponent is the number of binary places before the point. -/
theorem le_of_mantissa (h : Approximates M E acc r) (hM : M ≠ 0) :
    2 ^ (totalExponent M E - 1) ≤ r := by
  have hlog : ((2 : ℚ) ^ M.log2) ≤ M := by exact_mod_cast Nat.log2_self_le hM
  calc (2 : ℚ) ^ (totalExponent M E - 1)
      = 2 ^ M.log2 * 2 ^ E := by
        rw [← zpow_natCast, ← zpow_add₀ (by norm_num), totalExponent]
        congr 1
        omega
    _ ≤ M * 2 ^ E := by gcongr
    _ ≤ r := h.low

/-- The bits of the mantissa and its exponent bound the number. -/
theorem lt_of_totalExponent (h : Approximates M E acc r) : r < 2 ^ totalExponent M E := by
  have hlog : ((M : ℚ) + 1) ≤ 2 ^ (M.log2 + 1) := by exact_mod_cast Nat.lt_log2_self
  calc r < (M + 1) * 2 ^ E := h.high
    _ ≤ 2 ^ (M.log2 + 1) * 2 ^ E := by gcongr
    _ = 2 ^ totalExponent M E := by
        rw [← zpow_natCast, ← zpow_add₀ (by norm_num), totalExponent]
        congr 1

end Approximates

/-! ## Floats -/

/-- A positive mantissa and an exponent as the format asks for: all 53 bits of the mantissa are used
unless the exponent is the least one. -/
structure Canonical (m : ℕ) (e : ℤ) : Prop where
  pos : 0 < m
  lt : m < 2 ^ 53
  minExponent_le : -1074 ≤ e
  normal : 2 ^ 52 ≤ m ∨ e = -1074

theorem targetExponent_eq (te : ℤ) : Format.binary64.targetExponent te = max (te - 53) (-1074) := by
  rfl

/-- A canonical mantissa stands where the format wants it. -/
theorem Canonical.targetExponent (h : Canonical m e) :
    Format.binary64.targetExponent (totalExponent m e) = e := by
  rcases h with ⟨hpos, hlt, hmin, hnormal⟩
  have hlog : m.log2 < 53 := (Nat.log2_lt hpos.ne').2 hlt
  rw [targetExponent_eq, totalExponent]
  rcases hnormal with hnormal | rfl
  · have hlog' : 52 ≤ m.log2 := (Nat.le_log2 hpos.ne').2 hnormal
    omega
  · omega

/-- `r` is nearest to `m * 2 ^ e` among the floats, with a tie going to the even mantissa.  Below a
power of two the floats lie twice as close. -/
structure RoundsTo (r : ℚ) (m : ℕ) (e : ℤ) : Prop where
  nearest : NearestEven (r / 2 ^ e) m
  low : m = 2 ^ 52 → -1074 < e → m - 1 / 4 ≤ r / 2 ^ e

/-- Comparing with powers of two, the exponent may be taken to the other side. -/
theorem two_pow_le_div {k : ℕ} : (2 : ℚ) ^ k ≤ r / 2 ^ e ↔ 2 ^ (e + k) ≤ r := by
  rw [le_div_iff₀ (by positivity), zpow_add₀ (by norm_num), mul_comm, zpow_natCast]

theorem div_lt_two_pow {k : ℕ} : r / 2 ^ e < (2 : ℚ) ^ k ↔ r < 2 ^ (e + k) := by
  rw [div_lt_iff₀ (by positivity), zpow_add₀ (by norm_num), mul_comm, zpow_natCast]

namespace RoundsTo

/-- A float rounds to itself. -/
theorem exact (m : ℕ) (e : ℤ) : RoundsTo (m * 2 ^ e) m e := by
  have hcancel : (m : ℚ) * 2 ^ e / 2 ^ e = m := mul_div_cancel_right₀ _ (by positivity)
  refine ⟨?_, ?_⟩
  · rw [hcancel]
    exact nearestEven_of_lt (by linarith) (by linarith)
  · intro _ _
    rw [hcancel]
    linarith

/-- What rounds to a float is at least half of its place. -/
theorem half_le (h : RoundsTo r m e) (hc : Canonical m e) : 2 ^ (e - 1) ≤ r := by
  have hm : (1 : ℚ) ≤ m := by exact_mod_cast hc.pos
  have hlow := h.nearest.low
  have hy : (1 : ℚ) / 2 ≤ r / 2 ^ e := by linarith
  rw [zpow_sub₀ (by norm_num), zpow_one, ← one_div_mul_eq_div]
  exact (le_div_iff₀ (by positivity)).1 hy

/-- And it stays below the next power of two. -/
theorem lt_two_pow (h : RoundsTo r m e) (hc : Canonical m e) : r < 2 ^ (e + 53) := by
  have hm : (m : ℚ) + 1 ≤ 2 ^ 53 := by exact_mod_cast hc.lt
  have hhigh := h.nearest.high
  exact div_lt_two_pow.1 (by linarith)

/-- A mantissa with more than its leading bit was not rounded up to that bit. -/
theorem two_pow_le (h : RoundsTo r m e) (hm : 2 ^ 52 < m) : 2 ^ (e + 52) ≤ r := by
  have hm : (2 : ℚ) ^ 52 + 1 ≤ m := by exact_mod_cast hm
  have hlow := h.nearest.low
  exact two_pow_le_div.1 (by linarith)

theorem two_pow_le_of_normal (h : RoundsTo r m e) (hm : 2 ^ 52 ≤ m) : 2 ^ (e + 51) ≤ r := by
  have hm : (2 : ℚ) ^ 52 ≤ m := by exact_mod_cast hm
  have hlow := h.nearest.low
  exact two_pow_le_div.1 (by linarith)

/-- One binary place below a power of two, the interval rounds up to that power. -/
theorem nearestEven_below (h : RoundsTo r (2 ^ 52) e) (he : -1074 < e) (hr : r < 2 ^ (e + 52)) :
    NearestEven (r / 2 ^ (e - 1)) (2 ^ 53) := by
  have hdouble : r / 2 ^ (e - 1) = 2 * (r / 2 ^ e) := by
    rw [zpow_sub₀ (by norm_num), zpow_one]
    field_simp
  have hlow := h.low rfl he
  have hhigh : r / 2 ^ e < 2 ^ 52 := div_lt_two_pow.2 hr
  push_cast at hlow
  rw [hdouble]
  refine nearestEven_of_even (by norm_num) ?_ ?_ <;> push_cast <;> linarith

end RoundsTo

/-- Where an approximation of `r` is rounded: at the exponent of the float, or just below it, where
rounding carries over to the next power of two. -/
theorem targetExponent_cases (hc : Canonical m e) (hr : RoundsTo r m e)
    (happ : Approximates M E acc r)
    (hE : E ≤ Format.binary64.targetExponent (totalExponent M E)) :
    Format.binary64.targetExponent (totalExponent M E) = e ∨
      Format.binary64.targetExponent (totalExponent M E) = e - 1 ∧ m = 2 ^ 52 ∧
        NearestEven (r / 2 ^ (e - 1)) (2 ^ 53) := by
  have hlt : ∀ {a b : ℤ}, (2 : ℚ) ^ a ≤ r → r < 2 ^ b → a < b := by
    intro a b ha hb
    exact (zpow_lt_zpow_iff_right₀ (by norm_num)).1 (lt_of_le_of_lt ha hb)
  have hmin := hc.minExponent_le
  have hupper := hr.lt_two_pow hc
  have hte := happ.lt_of_totalExponent
  rw [targetExponent_eq] at hE ⊢
  by_cases hM : M = 0
  · -- Nothing is left of `r` but its accuracy, so it is below the least positive float.
    subst hM
    simp only [totalExponent, Nat.log2_zero] at hE hte ⊢
    left
    rcases hc.normal with hnormal | he
    · have hge := hlt (hr.two_pow_le_of_normal hnormal) hte
      omega
    · omega
  · have hle := hlt (happ.le_of_mantissa hM) hupper
    rcases hc.normal with hnormal | rfl
    · -- Only a power of two has numbers below it that still round to it.
      by_cases hlow : (2 : ℚ) ^ (e + 52) ≤ r
      · have hge := hlt hlow hte
        left
        omega
      · have hm : m = 2 ^ 52 := by
          by_contra hne
          exact hlow (hr.two_pow_le (lt_of_le_of_ne hnormal (Ne.symm hne)))
        subst hm
        by_cases he : e = -1074
        · -- Below the least exponent the floats get no closer.
          left
          omega
        · have hbelow := hr.nearestEven_below (lt_of_le_of_ne hmin (Ne.symm he)) (lt_of_not_ge hlow)
          have hge := hlt (hr.two_pow_le_of_normal le_rfl) hte
          have hle' := hlt (happ.le_of_mantissa hM) (lt_of_not_ge hlow)
          exact Or.inr ⟨by omega, rfl, hbelow⟩
    · -- A subnormal float has the least exponent there is.
      left
      omega

/-! ## Rounding an approximation -/

/-- A first shift brings an approximation to the exponent at which it is rounded. -/
theorem nearestEven_shiftToTargetExponent (happ : Approximates M E acc r)
    (hE : E ≤ Format.binary64.targetExponent (totalExponent M E)) :
    (shiftToTargetExponent Format.binary64 M E acc).2
        = Format.binary64.targetExponent (totalExponent M E) ∧
      NearestEven (r / 2 ^ Format.binary64.targetExponent (totalExponent M E))
        (shiftToTargetExponent Format.binary64 M E acc).1.roundedMantissa := by
  generalize htarget : Format.binary64.targetExponent (totalExponent M E) = T at hE ⊢
  have hshift : ((T - E).toNat : ℤ) = T - E := Int.toNat_of_nonneg (by omega)
  have hexp : r / 2 ^ E / 2 ^ (T - E).toNat = r / 2 ^ T := by
    rw [div_div, ← zpow_natCast, ← zpow_add₀ (by norm_num), hshift, add_sub_cancel]
  rw [shiftToTargetExponent, htarget]
  refine ⟨?_, ?_⟩
  · rw [shiftToExponent, hshift, add_sub_cancel]
  · rw [← hexp]
    exact (Describes.shiftRight happ _).nearestEven

/-- Nothing is shifted out of a canonical mantissa. -/
theorem shiftToTargetExponent_canonical (hc : Canonical m e) :
    shiftToTargetExponent Format.binary64 m e .exact = (⟨m, false, false⟩, e) := by
  have hzero : (e - e).toNat = 0 := by omega
  rw [shiftToTargetExponent, hc.targetExponent, shiftToExponent, hzero]
  simp only [ExtendedMantissa.ofMantissaAndAccuracy, Nat.cast_zero, add_zero]
  rfl

/-- A mantissa that was rounded up to the next power of two is shifted by one. -/
theorem shiftToTargetExponent_carry (he : -1074 ≤ e - 1) :
    shiftToTargetExponent Format.binary64 (2 ^ 53) (e - 1) .exact =
      (⟨2 ^ 52, false, false⟩, e) := by
  have htarget : Format.binary64.targetExponent (totalExponent (2 ^ 53) (e - 1)) = e := by
    rw [targetExponent_eq, totalExponent, Nat.log2_two_pow]
    omega
  have hone : (e - (e - 1)).toNat = 1 := by omega
  rw [shiftToTargetExponent, htarget, shiftToExponent, hone]
  simp only [ExtendedMantissa.ofMantissaAndAccuracy, Nat.cast_one, sub_add_cancel]
  rfl

/-- A number in the rounding interval of a float is rounded to that float. -/
theorem roundWithAccuracy_eq (hc : Canonical m e) (hr : RoundsTo r m e) (s : Sign)
    (happ : Approximates M E acc r)
    (hE : E ≤ Format.binary64.targetExponent (totalExponent M E)) :
    roundWithAccuracy Format.binary64 s M E acc = .finite s m e hc.pos := by
  rcases nearestEven_shiftToTargetExponent happ hE with ⟨hexp, hnearest⟩
  rw [roundWithAccuracy]
  generalize shiftToTargetExponent Format.binary64 M E acc = shifted at hexp hnearest ⊢
  rcases shifted with ⟨em, E₁⟩
  dsimp only at hexp hnearest ⊢
  rcases targetExponent_cases hc hr happ hE with htarget | ⟨htarget, rfl, hbelow⟩
  · rw [htarget] at hexp hnearest
    rw [hnearest.unique hr.nearest, hexp, shiftToTargetExponent_canonical hc]
    simp [hc.pos.ne']
  · -- Rounding gives 54 bits, of which a second shift removes the last one, a zero.
    rw [htarget] at hexp hnearest
    rw [targetExponent_eq] at htarget
    rw [hnearest.unique hbelow, hexp, shiftToTargetExponent_carry (by omega)]
    simp

end Rounding
end RegisterLisp
