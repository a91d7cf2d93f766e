import RegisterLisp.Number.Word

/-!
# Shortest decimals

Every finite float is the nearest float to a whole interval of reals.  Its shortest decimal is the
decimal in that interval with the fewest significant digits; of two such decimals it is the one
nearer to the float, and of two equally near ones the larger.

The search runs over decimal grids `10 ^ k`, coarse ones first.  On each grid only the two
neighbours of the float have to be tried: if any point of the grid lies in the interval, one of
them does.  All comparisons are made in exact natural number arithmetic.
-/

namespace RegisterLisp
namespace Number

structure Decimal where
  digits : Nat
  exponent : Int
  deriving DecidableEq, Repr

namespace Decimal

/-- Moves trailing zeros of the digits into the exponent, at most `fuel` of them. -/
def stripZeros : Nat → Decimal → Decimal
  | 0, d => d
  | fuel + 1, d =>
      if d.digits % 10 = 0 then stripZeros fuel ⟨d.digits / 10, d.exponent + 1⟩ else d

end Decimal

def isNegative (x : Float) : Bool :=
  x.toBits >>> 63 == 1

def exponentField (x : Float) : Nat :=
  x.toBits.toNat / Nat.pow 2 52 % Nat.pow 2 11

def fractionField (x : Float) : Nat :=
  x.toBits.toNat % Nat.pow 2 52

/-- A finite nonzero magnitude with the ends of its rounding interval, all as numerators over one
denominator. -/
structure Interval where
  low : Nat
  value : Nat
  high : Nat
  denominator : Nat
  /-- Whether the ends round to the value as well. -/
  closed : Bool
  deriving Repr

/-- The rounding interval of `|x|`, for finite `x`.  The significand is even exactly if the ends
belong to the interval, and at a power of two the lower half is half as wide. -/
def interval (x : Float) : Interval :=
  let e := exponentField x
  let f := fractionField x
  let m := if e = 0 then f else f + Nat.pow 2 52
  -- the ends lie at quarters of the last place
  let power : Int := (if e = 0 then 1 else e : Nat) - 1077
  let below := if f = 0 ∧ 1 < e then 1 else 2
  let scale := Nat.pow 2 power.toNat
  { low := (4 * m - below) * scale
    value := 4 * m * scale
    high := (4 * m + 2) * scale
    denominator := Nat.pow 2 (-power).toNat
    closed := m % 2 = 0 }

namespace Interval

/-- Whether the decimal `point * 10 ^ k`, given as the ratio `point * up / down`, is in the
interval. -/
def holds (i : Interval) (up down point : Nat) : Bool :=
  let p := point * up * i.denominator
  if i.closed then i.low * down ≤ p && p ≤ i.high * down
  else i.low * down < p && p < i.high * down

/-- The decimal on the grid `10 ^ k` that the interval holds, if there is one. -/
def onGrid? (i : Interval) (k : Int) : Option Decimal :=
  let up := Nat.pow 10 k.toNat
  let down := Nat.pow 10 (-k).toNat
  let point := i.value * down / (up * i.denominator)
  match i.holds up down point, i.holds up down (point + 1) with
  | true, true =>
      if 2 * i.value * down < (2 * point + 1) * up * i.denominator then some ⟨point, k⟩
      else some ⟨point + 1, k⟩
  | true, false => some ⟨point, k⟩
  | false, true => some ⟨point + 1, k⟩
  | false, false => none

/-- More decimal places than the smallest positive float has leading zeros. -/
def places : Nat := 400

def leading (i : Interval) : Int :=
  ((Nat.toDigits 10 (i.value * Nat.pow 10 places / i.denominator)).length : Int) - 1 - places

/-- Tries the grids `10 ^ k`, `10 ^ (k - 1)`, … until the interval holds a decimal.  A grid of
seventeen digits always has one. -/
def search (i : Interval) : Nat → Int → Decimal
  | 0, k => (i.onGrid? k).getD ⟨0, 0⟩
  | n + 1, k => (i.onGrid? k).getD (search i n (k - 1))

end Interval

/-- The shortest decimal of a finite nonzero float, without its sign and without trailing
zeros. -/
def shortest (x : Float) : Decimal :=
  let i := interval x
  (i.search 16 i.leading).stripZeros 17

end Number
end RegisterLisp
