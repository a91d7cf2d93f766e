import RegisterLisp.Proofs.Number.Packing

/-!
# Shortest decimals

The search for the shortest decimal of a float ends with a decimal in the rounding interval of the
float (`roundsTo_shortest`).  It goes through decimal grids, and stops where one of the two
neighbours of the float on the grid is in the interval.  The interval is wider than the spacing of
the last grid, so one of the neighbours on it is inside.
-/

namespace RegisterLisp
namespace Number

open Rounding

variable {i : Interval} {k : ℤ} {r : ℚ} {d : Decimal}

def Decimal.value (d : Decimal) : ℚ :=
  d.digits * 10 ^ d.exponent

/-- Moving zeros into the exponent keeps the value. -/
theorem Decimal.value_stripZeros (fuel : ℕ) (d : Decimal) :
    (d.stripZeros fuel).value = d.value := by
  induction fuel generalizing d with
  | zero => rfl
  | succ fuel ih =>
      rw [Decimal.stripZeros]
      split
      · rename_i hzero
        have hdigits : (d.digits : ℚ) = (d.digits / 10 : ℕ) * 10 := by
          exact_mod_cast (Nat.div_mul_cancel (Nat.dvd_of_mod_eq_zero hzero)).symm
        rw [ih, Decimal.value, Decimal.value, hdigits, zpow_add₀ (by norm_num), zpow_one]
        ring
      · rfl

/-- A power with an integer exponent as a ratio of naturals. -/
theorem zpow_eq_div {b : ℚ} (hb : 0 < b) (k : ℤ) : b ^ k = b ^ k.toNat / b ^ (-k).toNat := by
  rw [eq_div_iff (by positivity), ← zpow_natCast, ← zpow_natCast, ← zpow_add₀ hb.ne']
  congr 1
  omega

namespace Interval

/-! ## Membership -/

def Holds (i : Interval) (r : ℚ) : Prop :=
  if i.closed then i.low / i.denominator ≤ r ∧ r ≤ i.high / i.denominator
  else (i.low / i.denominator : ℚ) < r ∧ r < i.high / i.denominator

/-- The comparisons of naturals are those of the numbers they stand for. -/
theorem holds_iff (hd : 0 < i.denominator) (point : ℕ) :
    i.holds (10 ^ k.toNat) (10 ^ (-k).toNat) point = true ↔ i.Holds (point * 10 ^ k) := by
  have hd' : (0 : ℚ) < i.denominator := by exact_mod_cast hd
  have hpos : (0 : ℚ) < 10 ^ (-k).toNat := by positivity
  rw [holds, Holds, zpow_eq_div (by norm_num), ← mul_div_assoc]
  cases i.closed with
  | true =>
      rw [if_pos rfl, if_pos rfl, div_le_div_iff₀ hd' hpos, div_le_div_iff₀ hpos hd',
        Bool.and_eq_true, decide_eq_true_iff, decide_eq_true_iff]
      norm_cast
  | false =>
      rw [if_neg (by decide), if_neg (by decide), div_lt_div_iff₀ hd' hpos,
        div_lt_div_iff₀ hpos hd', Bool.and_eq_true, decide_eq_true_iff, decide_eq_true_iff]
      norm_cast

/-- The decimal found on a grid is in the interval. -/
theorem holds_onGrid? (hd : 0 < i.denominator) (h : i.onGrid? k = some d) : i.Holds d.value := by
  rw [onGrid?] at h
  split at h
  · rename_i hlow hhigh
    split at h
    · cases h
      exact (holds_iff hd _).1 hlow
    · cases h
      exact (holds_iff hd _).1 hhigh
  · rename_i hlow hhigh
    cases h
    exact (holds_iff hd _).1 hlow
  · rename_i hlow hhigh
    cases h
    exact (holds_iff hd _).1 hhigh
  · cases h

/-- What is not held and lies below the upper end lies below the lower end, too. -/
theorem le_low_of_not_holds (h : ¬ i.Holds r) (hr : r < i.high / i.denominator) :
    r ≤ i.low / i.denominator := by
  by_contra hlt
  rw [not_le] at hlt
  refine h ?_
  rw [Holds]
  split
  · exact ⟨hlt.le, hr.le⟩
  · exact ⟨hlt, hr⟩

theorem high_le_of_not_holds (h : ¬ i.Holds r) (hr : i.low / i.denominator < r) :
    i.high / i.denominator ≤ r := by
  by_contra hlt
  rw [not_le] at hlt
  refine h ?_
  rw [Holds]
  split
  · exact ⟨hr.le, hlt.le⟩
  · exact ⟨hr, hlt⟩

/-! ## The search -/

/-- The numerators are in order around the value. -/
structure Proper (i : Interval) : Prop where
  low_lt : i.low < i.value
  lt_high : i.value < i.high
  denominator_pos : 0 < i.denominator

/-- A grid that is finer than the interval is wide has a point in it. -/
theorem onGrid?_isSome (hi : i.Proper)
    (hgrid : (10 : ℚ) ^ k < i.high / i.denominator - i.low / i.denominator) :
    (i.onGrid? k).isSome = true := by
  have hd : (0 : ℚ) < i.denominator := by exact_mod_cast hi.denominator_pos
  have hlow : (i.low / i.denominator : ℚ) < i.value / i.denominator := by
    have := hi.low_lt
    gcongr
  have hhigh : (i.value / i.denominator : ℚ) < i.high / i.denominator := by
    have := hi.lt_high
    gcongr
  rw [onGrid?]
  generalize hpoint :
    i.value * 10 ^ (-k).toNat / (10 ^ k.toNat * i.denominator) = point
  -- The value lies between the two neighbours.
  have hbelow : (point : ℚ) * 10 ^ k ≤ i.value / i.denominator := by
    have hfloor := Nat.div_mul_le_self (i.value * 10 ^ (-k).toNat) (10 ^ k.toNat * i.denominator)
    rw [hpoint, ← mul_assoc] at hfloor
    rw [zpow_eq_div (by norm_num), ← mul_div_assoc, div_le_div_iff₀ (by positivity) hd]
    exact_mod_cast hfloor
  have habove : (i.value / i.denominator : ℚ) < (point + 1 : ℕ) * 10 ^ k := by
    have hpos : 0 < 10 ^ k.toNat * i.denominator := Nat.mul_pos (by positivity) hi.denominator_pos
    have hfloor := Nat.lt_mul_div_succ (i.value * 10 ^ (-k).toNat) hpos
    rw [hpoint, mul_comm (10 ^ k.toNat * i.denominator), ← mul_assoc] at hfloor
    rw [zpow_eq_div (by norm_num), ← mul_div_assoc, div_lt_div_iff₀ hd (by positivity)]
    exact_mod_cast hfloor
  cases hleft : i.holds (10 ^ k.toNat) (10 ^ (-k).toNat) point with
  | true =>
      cases i.holds (10 ^ k.toNat) (10 ^ (-k).toNat) (point + 1) with
      | true =>
          dsimp only
          split <;> rfl
      | false => rfl
  | false =>
      cases hright : i.holds (10 ^ k.toNat) (10 ^ (-k).toNat) (point + 1) with
      | true => rfl
      | false =>
          -- With both outside, the interval would lie between them and be no wider than the grid.
          rw [← Bool.not_eq_true, holds_iff hi.denominator_pos] at hleft hright
          have hl := le_low_of_not_holds hleft (by linarith)
          have hh := high_le_of_not_holds hright (by linarith)
          push_cast at hh
          linarith

/-- The search succeeds if the last grid it tries is fine enough. -/
theorem holds_search (hi : i.Proper) (n : ℕ) (k : ℤ) (h : (i.onGrid? (k - n)).isSome = true) :
    i.Holds (i.search n k).value := by
  induction n generalizing k with
  | zero =>
      rw [Nat.cast_zero, sub_zero] at h
      rcases Option.isSome_iff_exists.1 h with ⟨d, hd⟩
      rw [search, hd]
      exact holds_onGrid? hi.denominator_pos hd
  | succ n ih =>
      rw [search]
      cases hgrid : i.onGrid? k with
      | some d => exact holds_onGrid? hi.denominator_pos hgrid
      | none =>
          have hlast : k - 1 - n = k - (n + 1 : ℕ) := by
            push_cast
            ring
          exact ih (k - 1) (by rwa [hlast])

theorem ten_pow_length_le {n : ℕ} (hn : 0 < n) : 10 ^ ((Nat.toDigits 10 n).length - 1) ≤ n := by
  by_cases hone : (Nat.toDigits 10 n).length - 1 = 0
  · rw [hone]
    exact hn
  · rw [← Nat.not_lt, ← Nat.length_toDigits_le_iff (by norm_num) (Nat.pos_of_ne_zero hone)]
    omega

/-- The leading digit is not beyond the value. -/
theorem ten_zpow_leading (hi : i.Proper) (hvalue : i.denominator ≤ i.value * 10 ^ places) :
    (10 : ℚ) ^ i.leading ≤ i.value / i.denominator := by
  have hd : (0 : ℚ) < i.denominator := by exact_mod_cast hi.denominator_pos
  generalize hscaled : i.value * 10 ^ places / i.denominator = n
  have hn : 0 < n := by
    rw [← hscaled]
    exact Nat.div_pos hvalue hi.denominator_pos
  have hfloor : (n : ℚ) ≤ i.value * 10 ^ places / i.denominator := by
    have hle := Nat.div_mul_le_self (i.value * 10 ^ places) i.denominator
    rw [hscaled] at hle
    rw [le_div_iff₀ hd]
    exact_mod_cast hle
  -- The value was scaled up by all places, which come off its exponent again.
  have hlength := Nat.length_toDigits_pos (b := 10) (n := n)
  have hexponent : i.leading = ((Nat.toDigits 10 n).length - 1 : ℕ) - (places : ℤ) := by
    rw [leading, Nat.pow_eq, hscaled]
    omega
  calc (10 : ℚ) ^ i.leading
      = (10 ^ ((Nat.toDigits 10 n).length - 1) : ℕ) / 10 ^ places := by
        rw [hexponent, zpow_sub₀ (by norm_num), zpow_natCast, zpow_natCast]
        norm_cast
    _ ≤ n / 10 ^ places := by
        gcongr
        exact ten_pow_length_le hn
    _ ≤ i.value * 10 ^ places / i.denominator / 10 ^ places := by gcongr
    _ = i.value / i.denominator := by field_simp

end Interval

/-! ## The interval of a float -/

/-- The quarters of the last place between a float and the lower end of its interval. -/
def below (x : Float) : ℕ :=
  if significand x = 2 ^ 52 ∧ -1074 < scale x then 1 else 2

theorem below_eq (x : Float) :
    (if fractionField x = 0 ∧ 1 < exponentField x then 1 else 2) = below x := by
  have hfraction := fractionField_lt x
  have hiff : fractionField x = 0 ∧ 1 < exponentField x ↔
      significand x = 2 ^ 52 ∧ -1074 < scale x := by
    rw [significand, scale]
    by_cases hexp : exponentField x = 0
    · rw [if_pos hexp, if_pos hexp]
      omega
    · rw [if_neg hexp, if_neg hexp]
      omega
  rw [below]
  simp only [hiff]

/-- The ends of the interval in quarters of the last place. -/
theorem interval_eq (x : Float) : interval x =
    { low := (4 * significand x - below x) * 2 ^ (scale x - 2).toNat
      value := 4 * significand x * 2 ^ (scale x - 2).toNat
      high := (4 * significand x + 2) * 2 ^ (scale x - 2).toNat
      denominator := 2 ^ (-(scale x - 2)).toNat
      closed := significand x % 2 = 0 } := by
  have hpower : ((if exponentField x = 0 then 1 else exponentField x : ℕ) : ℤ) - 1077
      = scale x - 2 := by
    rw [scale]
    ring
  simp only [interval, hpower, below_eq]
  rfl

theorem mul_two_pow_div (n : ℕ) (p : ℤ) :
    ((n * 2 ^ p.toNat : ℕ) : ℚ) / (2 ^ (-p).toNat : ℕ) = n * 2 ^ p := by
  rw [zpow_eq_div (by norm_num), ← mul_div_assoc]
  push_cast
  rfl

/-- Quarters of a place are places of an exponent lower by two. -/
theorem quarters (n : ℕ) (e : ℤ) : (n : ℚ) * 2 ^ (e - 2) = n / 4 * 2 ^ e := by
  rw [zpow_sub₀ (by norm_num)]
  norm_num
  ring

theorem below_le (x : Float) : below x ≤ 2 := by
  rw [below]
  split <;> norm_num

/-- The lower end: half a place down, or a quarter at a power of two. -/
theorem low_div {x : Float} (h : Representable (significand x) (scale x)) :
    ((interval x).low : ℚ) / (interval x).denominator
      = (significand x - below x / 4) * 2 ^ scale x := by
  have hpos := h.pos
  have hbelow := below_le x
  rw [interval_eq]
  dsimp only
  rw [mul_two_pow_div, quarters, Nat.cast_sub (by omega)]
  push_cast
  ring

/-- The value itself is the float. -/
theorem value_div (x : Float) :
    ((interval x).value : ℚ) / (interval x).denominator = significand x * 2 ^ scale x := by
  rw [interval_eq]
  dsimp only
  rw [mul_two_pow_div, quarters]
  push_cast
  ring

/-- The upper end: half a place up. -/
theorem high_div (x : Float) :
    ((interval x).high : ℚ) / (interval x).denominator
      = (significand x + 1 / 2) * 2 ^ scale x := by
  rw [interval_eq]
  dsimp only
  rw [mul_two_pow_div, quarters]
  push_cast
  ring

/-- The float lies between the ends. -/
theorem interval_proper {x : Float} (h : Representable (significand x) (scale x)) :
    (interval x).Proper := by
  have hpos := h.pos
  have hbelow : 1 ≤ below x := by
    rw [below]
    split <;> norm_num
  rw [interval_eq]
  refine ⟨?_, ?_, ?_⟩ <;> dsimp only
  · exact Nat.mul_lt_mul_of_pos_right (by omega) (by positivity)
  · exact Nat.mul_lt_mul_of_pos_right (by omega) (by positivity)
  · positivity

/-- What the interval holds is rounded to the float. -/
theorem roundsTo_of_holds {x : Float} (h : Representable (significand x) (scale x))
    (hr : (interval x).Holds r) : RoundsTo r (significand x) (scale x) := by
  have hscale : (0 : ℚ) < 2 ^ scale x := by positivity
  have hbelow : (below x : ℚ) ≤ 2 := by exact_mod_cast below_le x
  have hclosed : (interval x).closed = decide (significand x % 2 = 0) := by rw [interval_eq]
  rw [Interval.Holds, low_div h, high_div, hclosed, ← le_div_iff₀ hscale, ← div_le_iff₀ hscale,
    ← lt_div_iff₀ hscale, ← div_lt_iff₀ hscale] at hr
  have hnearest : NearestEven (r / 2 ^ scale x) (significand x) ∧
      significand x - (below x : ℚ) / 4 ≤ r / 2 ^ scale x := by
    by_cases heven : significand x % 2 = 0
    · rw [if_pos (by simpa using heven)] at hr
      exact ⟨nearestEven_of_even heven (by linarith [hr.1]) hr.2, hr.1⟩
    · rw [if_neg (by simpa using heven)] at hr
      exact ⟨nearestEven_of_lt (by linarith [hr.1]) hr.2, hr.1.le⟩
  -- At a power of two the interval reaches only a quarter of a place down.
  refine ⟨hnearest.1, ?_⟩
  intro hm he
  have hone : below x = 1 := by rw [below, if_pos ⟨hm, he⟩]
  have hlow := hnearest.2
  rw [hone] at hlow
  exact_mod_cast hlow

/-- A float is not so small that the first grid would be too coarse. -/
theorem denominator_le {x : Float} (h : Representable (significand x) (scale x)) :
    (interval x).denominator ≤ (interval x).value * 10 ^ Interval.places := by
  have hpos := h.pos
  have hmin := h.minExponent_le
  rw [interval_eq]
  dsimp only
  have hvalue : 0 < 4 * significand x * 2 ^ (scale x - 2).toNat :=
    Nat.mul_pos (by omega) (by positivity)
  calc 2 ^ (-(scale x - 2)).toNat ≤ 2 ^ 1076 := Nat.pow_le_pow_right (by norm_num) (by omega)
    _ ≤ 10 ^ Interval.places := by decide +kernel
    _ ≤ 4 * significand x * 2 ^ (scale x - 2).toNat * 10 ^ Interval.places :=
        Nat.le_mul_of_pos_left _ hvalue

/-- The last grid that is tried is finer than the interval is wide. -/
theorem grid_lt {x : Float} (h : Representable (significand x) (scale x)) :
    (10 : ℚ) ^ ((interval x).leading - (16 : ℕ)) <
      (interval x).high / (interval x).denominator
        - (interval x).low / (interval x).denominator := by
  have hscale : (0 : ℚ) < 2 ^ scale x := by positivity
  have hleading := Interval.ten_zpow_leading (interval_proper h) (denominator_le h)
  rw [value_div] at hleading
  -- Seventeen digits tell floats of 53 bits apart, also below a power of two.
  have hwidth : (significand x : ℚ) / 10 ^ 16 < 1 / 2 + below x / 4 := by
    by_cases hpower : significand x = 2 ^ 52 ∧ -1074 < scale x
    · rw [below, if_pos hpower, hpower.1]
      norm_num
    · have hm : (significand x : ℚ) < 2 ^ 53 := by exact_mod_cast h.lt
      rw [below, if_neg hpower, div_lt_iff₀ (by positivity)]
      norm_num at hm ⊢
      linarith
  calc (10 : ℚ) ^ ((interval x).leading - (16 : ℕ))
      = 10 ^ (interval x).leading / 10 ^ 16 := by
        rw [zpow_sub₀ (by norm_num), zpow_natCast]
    _ ≤ significand x * 2 ^ scale x / 10 ^ 16 := by gcongr
    _ = significand x / 10 ^ 16 * 2 ^ scale x := by ring
    _ < (1 / 2 + below x / 4) * 2 ^ scale x := by gcongr
    _ = (interval x).high / (interval x).denominator
          - (interval x).low / (interval x).denominator := by
        rw [low_div h, high_div]
        ring

/-- The shortest decimal of a float is in its rounding interval. -/
theorem roundsTo_shortest {x : Float} (h : Representable (significand x) (scale x)) :
    RoundsTo (shortest x).value (significand x) (scale x) := by
  rw [shortest, Decimal.value_stripZeros]
  have hproper := interval_proper h
  exact roundsTo_of_holds h
    (Interval.holds_search hproper 16 _ (Interval.onGrid?_isSome hproper (grid_lt h)))

end Number
end RegisterLisp
